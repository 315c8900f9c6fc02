import InterviewQuestions.Malloc.Arranged

/-! Blocks that share no memory. A block that `malloc` cuts off a larger one keeps the
size of the whole in its header; without such a cut all recorded extents lie apart. -/
namespace InterviewQuestions.Malloc

open Library Library.Extent

variable {lst : Address} {fuel : ℕ}

/-- The blocks on the free list and those handed out, at the sizes in their headers, lie
apart, and each has room for its bytes after the header. -/
def Separated (lst : Address) (s : State) : Prop :=
  ∃ blocks, FreeList lst s.heap.mem blocks ∧
    (recorded s.heap.mem (blocks ++ s.live.map Prod.fst)).Pairwise (Apart sizeofHeader) ∧
    ∀ b ∈ s.live, sizeofHeader + b.2 ≤ sizeofHeader * sizeAt s.heap.mem b.1

/-- `nbytes` and the bytes of its units can be computed in `size_t`. -/
def InRange (nbytes : ℕ) : Prop :=
  nbytes + sizeofHeader - 1 < 2 ^ 64 ∧ unitsFor nbytes * sizeofHeader < 2 ^ 64

instance (nbytes : ℕ) : Decidable (InRange nbytes) :=
  inferInstanceAs (Decidable (_ ∧ _))

/-- `malloc` cuts no block: the first free block that is large enough has just the right size,
or there is none and the memory from `sbrk`, if any, does not start where a free block ends. -/
def NoCut (lst : Address) (fuel : ℕ) (s : State) : Op → Prop
  | .free _ => True
  | .malloc nbytes =>
      (∀ block ∈ firstFit lst fuel s nbytes,
        sizeAt s.heap.mem block = unitsFor nbytes ∧ nbytes + sizeofHeader - 1 < 2 ^ 64) ∧
      (firstFit lst fuel s nbytes = none → ∀ gap ∈ s.heap.sbrks 0, InRange nbytes ∧
        ∀ a ∈ freeBlocks lst s.heap.mem fuel (s.heap.mem lst).next,
          a + sizeofHeader * sizeAt s.heap.mem a ≠ s.heap.brk + gap)

instance (s : State) : ∀ op, Decidable (NoCut lst fuel s op)
  | .free _ => isTrue trivial
  | .malloc _ => inferInstanceAs (Decidable (_ ∧ _))

/-! ## The invariant -/

/-- The headers of the blocks handed out have the sizes that their bytes need. -/
structure Exact (lst : Address) (s : State) (blocks : List Address) : Prop where
  arranged : Arranged lst s blocks
  sizes : ∀ b ∈ s.live, sizeAt s.heap.mem b.1 = unitsFor b.2
  range : ∀ b ∈ s.live, b.2 + sizeofHeader - 1 < 2 ^ 64

theorem room_of_range {nbytes : ℕ} (h : nbytes + sizeofHeader - 1 < 2 ^ 64) :
    sizeofHeader + nbytes ≤ sizeofHeader * unitsFor nbytes := by
  unfold unitsFor
  rw [Nat.mod_eq_of_lt h]
  unfold sizeofHeader
  omega

theorem Exact.separated {s : State} {blocks : List Address} (h : Exact lst s blocks) :
    Separated lst s := by
  refine ⟨blocks, h.arranged.ring, ?_, fun b hb => ?_⟩
  · have hlive : recorded s.heap.mem (s.live.map Prod.fst) = liveExtents s.live := by
      rw [recorded, liveExtents, List.map_map]
      exact List.map_congr_left fun b hb => by simp [h.sizes b hb]
    have hsplit : recorded s.heap.mem (blocks ++ s.live.map Prod.fst) =
        recorded s.heap.mem blocks ++ recorded s.heap.mem (s.live.map Prod.fst) := List.map_append
    rw [hsplit, hlive]
    exact h.arranged.packed.apart
  · rw [h.sizes b hb]
    exact room_of_range (h.range b hb)

/-- The block that is handed out has the right size in its header. -/
theorem Exact.taken {s : State} {blocks blocks' : List Address} {block : Address} {nbytes : ℕ}
    {mem' : Memory} (hsizes : ∀ b ∈ s.live, sizeAt s.heap.mem b.1 = unitsFor b.2)
    (hrange : ∀ b ∈ s.live, b.2 + sizeofHeader - 1 < 2 ^ 64)
    (htaken : Taken lst s blocks block nbytes mem' blocks')
    (hexact : sizeAt s.heap.mem block = unitsFor nbytes)
    (hin : nbytes + sizeofHeader - 1 < 2 ^ 64) :
    Exact lst ⟨{ s.heap with mem := mem' }, (block, nbytes) :: s.live⟩ blocks' where
  arranged := htaken.arranged
  sizes := List.forall_mem_cons.mpr
    ⟨htaken.size.trans hexact, fun b hb => (htaken.sizes b hb).trans (hsizes b hb)⟩
  range := List.forall_mem_cons.mpr ⟨hin, hrange⟩

theorem Exact.malloc {s s' : State} {blocks blocks' : List Address} {nbytes : ℕ}
    {res : Option Address} (h : Exact lst s blocks) (hfuel : blocks.length ≤ fuel)
    (hcut : NoCut lst fuel s (.malloc nbytes))
    (hstep : MallocStep lst s blocks nbytes res s' blocks') : Exact lst s' blocks' := by
  cases hstep with
  | fits hblocks hleft htaken =>
    have hfirst := h.arranged.firstFit_some hfuel hblocks hleft htaken.enough
    obtain ⟨hexact, hin⟩ := hcut.1 _ hfirst
    exact Exact.taken h.sizes h.range htaken hexact hin
  | null hsmall hsbrk => exact ⟨h.arranged.sbrks _, h.sizes, h.range⟩
  | @grows gap heap₁ blocks₁ left right block mem' _ hsmall hsbrk hgrown hblocks hleft htaken =>
    obtain ⟨hin, hends⟩ := hcut.2 ((h.arranged.firstFit_none hfuel).mpr hsmall) gap hsbrk
    rw [freeBlocks_eq h.arranged.ring hfuel] at hends
    obtain ⟨hperm, hsizes⟩ := hgrown.alone hends
    -- the old blocks are too small, so the new one is taken whole
    have hblock : block = s.heap.brk + gap := by
      have hmem : block ∈ blocks₁ := by rw [hblocks]; simp
      apply (List.mem_cons.mp (hperm.mem_iff.mp hmem)).resolve_right
      intro hold
      have henough : unitsFor nbytes ≤ sizeAt heap₁.mem block := htaken.enough
      rw [hsizes, Function.update_of_ne (hgrown.above block hold)] at henough
      exact absurd (hsmall block hold) (Nat.not_lt.mpr henough)
    have hexact : sizeAt heap₁.mem block = unitsFor nbytes := by
      rw [hsizes, hblock, Function.update_self]
    have hold : ∀ b ∈ s.live, sizeAt heap₁.mem b.1 = unitsFor b.2 := fun b hb =>
      (hgrown.sizes b hb).trans (h.sizes b hb)
    exact Exact.taken (s := ⟨heap₁, s.live⟩) hold h.range htaken hexact hin.1

theorem Exact.free {s s' : State} {blocks blocks' : List Address} {b : Address × ℕ}
    (h : Exact lst s blocks) (hstep : FreeStep s blocks b lst s' blocks') :
    Exact lst s' blocks' := by
  have hold : ∀ c ∈ s'.live, c ∈ s.live := fun c hc =>
    hstep.live.mem_iff.mpr (List.mem_cons_of_mem b hc)
  exact ⟨hstep.arranged, fun c hc => (hstep.sizes c hc).trans (h.sizes c (hold c hc)),
    fun c hc => h.range c (hold c hc)⟩

theorem keeps_exact :
    Keeps lst fuel (Exact lst) fun s op => ValidFree s op ∧ NoCut lst fuel s op where
  arranged h := h.arranged
  range _ hok hnone hsome := by
    obtain ⟨gap, hgap⟩ := Option.isSome_iff_exists.mp hsome
    exact (hok.2.2 hnone gap hgap).1.2
  malloc h hfuel hok hstep := h.malloc hfuel hok.2 hstep
  handed h hok := by
    obtain ⟨b, hb, hptr⟩ := hok.1
    exact ⟨b, hb, hptr, h.sizes b hb⟩
  free h _ hstep := h.free hstep

theorem exact_start {mem : Memory} {brk : Address} {sbrks : ℕ → Option ℕ}
    (hbrk : lst + sizeofHeader ≤ brk) : Exact lst (State.start lst mem brk sbrks) [] where
  arranged := arranged_start hbrk
  sizes b hb := by cases hb
  range b hb := by cases hb

/-! ## Runs -/

/-- In every run of valid calls that cut no block, each call returns and the blocks lie apart
in the state after it. -/
theorem blocks_separated {mem : Memory} {brk : Address} {sbrks : ℕ → Option ℕ}
    (hbrk : lst + sizeofHeader ≤ brk) {ops : List Op} (hfuel : ops.length + 2 < fuel)
    (hops : Machine.Admits (step lst fuel)
      (InState fun t op => ValidFree t op ∧ NoCut lst fuel t op)
      (some (State.start lst mem brk sbrks)) ops) :
    ∃ s, (Machine.run (step lst fuel) (some (State.start lst mem brk sbrks)) ops).1 = some s ∧
      Separated lst s := by
  obtain ⟨s, blocks, hrun, hexact⟩ := keeps_exact.run (exact_start hbrk) hfuel hops
  exact ⟨s, hrun, hexact.separated⟩

/-- Two blocks are coalesced and handed out as one. -/
theorem blocks_separated_coalesced :
    ∃ s, (Machine.run (step 0 10) (some contiguous)
      [.malloc 24576, .malloc 24576, .free 48, .free 24648, .malloc 49176]).1 = some s ∧
      Separated 0 s :=
  blocks_separated (by decide) (by decide) (by decide +kernel)

/-- A block of 6 units is freed and 2 of them are handed out again. -/
def cutSession : List Op := [.malloc 100, .free 48, .malloc 10]

/-- The block handed out still records 6 units, of which 4 are on the free list. -/
theorem blocks_overlap_after_cut :
    Machine.Admits (step 0 10) (InState ValidFree) (some contiguous) cutSession ∧
      ¬ ∃ s, (Machine.run (step 0 10) (some contiguous) cutSession).1 = some s ∧
        Separated 0 s := by
  refine ⟨by decide +kernel, ?_⟩
  rintro ⟨s, hrun, blocks, hring, hapart, _⟩
  have hstate : (Machine.run (step 0 10) (some contiguous) cutSession).1.map (fun s =>
      (nextOf s.heap.mem 0, sizeAt s.heap.mem 24, sizeAt s.heap.mem 72, s.live)) =
      some (72, 6, 4, [(24, 10)]) := by decide +kernel
  rw [hrun, Option.map_some] at hstate
  simp only [Option.some.injEq, Prod.mk.injEq] at hstate
  obtain ⟨hnext, hsize, hsize', hlive⟩ := hstate
  have hmem : 72 ∈ blocks := hnext ▸ hring.next_mem (by rw [hnext]; decide)
  rw [hlive, recorded, List.map_append, List.pairwise_append] at hapart
  have hcut := hapart.2.2 (72, sizeAt s.heap.mem 72) (mem_recorded hmem) (24, sizeAt s.heap.mem 24)
    (by simp)
  rw [hsize, hsize'] at hcut
  revert hcut
  unfold Apart stop
  decide

end InterviewQuestions.Malloc

/-! Memory that no header records. `alloc_mem` obtains at least `ALLOC_MIN_UNITS` units but
records only those asked for; without this, and as long as no block is freed with a size
it was not handed out for, every unit stays in some block. -/
namespace InterviewQuestions.Malloc

open Library Library.Extent

variable {lst : Address} {fuel nbytes : ℕ} {s : State} {blocks : List Address}

/-- Every unit obtained from `sbrk` is inside a block on the free list or handed out, at the size
in its header. -/
def Conserved (lst : Address) (s : State) : Prop :=
  ∀ chunk ∈ s.heap.obtained, ∀ j, sizeofHeader * (j + 1) ≤ chunk.2 →
    ∃ n, ∃ a ∈ freeBlocks lst s.heap.mem n (s.heap.mem lst).next ++ s.live.map Prod.fst,
      a ≤ chunk.1 + sizeofHeader * j ∧
        chunk.1 + sizeofHeader * (j + 1) ≤ a + sizeofHeader * sizeAt s.heap.mem a

/-- A call of `malloc` that gets memory from `sbrk` needs the minimum at least, and `free` finds
in the header the units that the block was handed out for. -/
def Accounted (lst : Address) (fuel : ℕ) (s : State) : Op → Prop
  | .malloc nbytes => firstFit lst fuel s nbytes = none → (s.heap.sbrks 0).isSome →
      ALLOC_MIN_UNITS ≤ unitsFor nbytes ∧ unitsFor nbytes * sizeofHeader < 2 ^ 64
  | .free ptr => ∀ b ∈ s.live, b.1 + sizeofHeader = ptr → sizeAt s.heap.mem b.1 = unitsFor b.2

instance (s : State) : ∀ op, Decidable (Accounted lst fuel s op)
  | .malloc _ => inferInstanceAs (Decidable (_ → _ → _ ∧ _))
  | .free ptr => inferInstanceAs
      (Decidable (∀ b ∈ s.live, b.1 + sizeofHeader = ptr → sizeAt s.heap.mem b.1 = unitsFor b.2))

/-! ## The invariant -/

/-- The units are covered even when a block handed out counts only for what it was asked for. -/
structure Covered (lst : Address) (s : State) (blocks : List Address) : Prop where
  arranged : Arranged lst s blocks
  sizes : ∀ b ∈ s.live, unitsFor b.2 ≤ sizeAt s.heap.mem b.1
  covers : ∀ chunk ∈ s.heap.obtained, ∀ j, sizeofHeader * (j + 1) ≤ chunk.2 →
    Covers sizeofHeader (recorded s.heap.mem blocks ++ liveExtents s.live)
      (chunk.1 + sizeofHeader * j)

/-- A unit that an extent covers lies inside it. -/
theorem cell_inside {p j a i u : ℕ} (hcell : p + sizeofHeader * j = a + sizeofHeader * i)
    (hi : i < u) : a ≤ p + sizeofHeader * j ∧
      p + sizeofHeader * (j + 1) ≤ a + sizeofHeader * u := by
  unfold sizeofHeader at *
  omega

theorem Covered.conserved (h : Covered lst s blocks) : Conserved lst s := by
  intro chunk hchunk j hj
  obtain ⟨e, he, i, hi, hcell⟩ := h.covers chunk hchunk j hj
  obtain ⟨hbelow, hstop⟩ := cell_inside hcell hi
  refine ⟨blocks.length, e.1, ?_, hbelow, ?_⟩
  · rw [freeBlocks_eq h.arranged.ring (Nat.le_refl _)]
    cases List.mem_append.mp he with
    | inl hfree =>
      obtain ⟨a, ha, rfl⟩ := List.mem_map.mp hfree
      exact List.mem_append_left _ ha
    | inr hlive =>
      obtain ⟨b, hb, rfl⟩ := List.mem_map.mp hlive
      have hstart : b.1 ∈ s.live.map Prod.fst := List.mem_map_of_mem hb
      exact List.mem_append_right _ hstart
  · have hsize : e.2 ≤ sizeAt s.heap.mem e.1 := by
      cases List.mem_append.mp he with
      | inl hfree =>
        obtain ⟨a, ha, rfl⟩ := List.mem_map.mp hfree
        exact Nat.le_refl _
      | inr hlive =>
        obtain ⟨b, hb, rfl⟩ := List.mem_map.mp hlive
        exact h.sizes b hb
    exact Nat.le_trans hstop (Nat.add_le_add_left (Nat.mul_le_mul_left _ hsize) _)

/-- Taking a block moves its units from the free list to the blocks handed out. -/
theorem Covered.taken {block : Address} {mem' : Memory} {blocks' : List Address}
    (h : Covered lst s blocks) (htaken : Taken lst s blocks block nbytes mem' blocks') :
    Covered lst ⟨{ s.heap with mem := mem' }, (block, nbytes) :: s.live⟩ blocks' := by
  refine ⟨htaken.arranged, List.forall_mem_cons.mpr ⟨?_, fun b hb => ?_⟩,
    fun chunk hchunk j hj => ?_⟩
  · rw [htaken.size]
    exact htaken.enough
  · rw [htaken.sizes b hb]
    exact h.sizes b hb
  · apply covers_append.mpr
    cases covers_append.mp (h.covers chunk hchunk j hj) with
    | inl hfree =>
      have hsplit := (covers_append (E := [(block, unitsFor nbytes)])).mp (htaken.covers _ hfree)
      exact hsplit.symm.imp_right fun hnew =>
        hnew.mono (List.cons_subset_cons _ (List.nil_subset _))
    | inr hlive => exact Or.inr (hlive.mono (List.subset_cons_self _ _))

/-- Growing the heap by exactly what the new header records. -/
theorem Covered.grown {gap units : ℕ} {heap' : Heap} {blocks' : List Address}
    (h : Covered lst s blocks) (hgrown : Grown lst s blocks (s.heap.brk + gap) units heap' blocks')
    (hbytes : bytesFor units = sizeofHeader * units) : Covered lst ⟨heap', s.live⟩ blocks' := by
  refine ⟨hgrown.arranged, fun b hb => ?_, fun chunk hchunk j hj => ?_⟩
  · rw [hgrown.sizes b hb]
    exact h.sizes b hb
  · apply covers_append.mpr
    have hchunk' : chunk ∈ (s.heap.brk + gap, bytesFor units) :: s.heap.obtained :=
      hgrown.obtained ▸ hchunk
    cases List.mem_cons.mp hchunk' with
    | inl hnew =>
      rw [hnew, hbytes] at hj
      have hlt : j < units := Nat.lt_of_mul_lt_mul_left
        (Nat.lt_of_lt_of_le (Nat.mul_lt_mul_of_pos_left (Nat.lt_succ_self j) sizeofHeader_pos) hj)
      rw [hnew]
      exact Or.inl (hgrown.joined.covers ⟨_, List.mem_cons_self, j, hlt, rfl⟩)
    | inr hold =>
      apply (covers_append.mp (h.covers chunk hold j hj)).imp_left
      intro hfree
      exact hgrown.joined.covers (hfree.mono (List.subset_cons_self _ _))

theorem Covered.malloc {s' : State} {blocks' : List Address} {res : Option Address}
    (h : Covered lst s blocks) (hfuel : blocks.length ≤ fuel)
    (hok : Accounted lst fuel s (.malloc nbytes))
    (hstep : MallocStep lst s blocks nbytes res s' blocks') : Covered lst s' blocks' := by
  cases hstep with
  | fits hblocks hleft htaken => exact h.taken htaken
  | null hsmall hsbrk => exact ⟨h.arranged.sbrks _, h.sizes, h.covers⟩
  | grows hsmall hsbrk hgrown hblocks hleft htaken =>
    obtain ⟨hmin, hwrap⟩ := hok ((h.arranged.firstFit_none hfuel).mpr hsmall)
      (Option.isSome_of_eq_some hsbrk)
    exact (h.grown hgrown (bytesFor_eq hmin hwrap)).taken htaken

theorem Covered.free {s' : State} {blocks' : List Address} {b : Address × ℕ}
    (h : Covered lst s blocks) (hsize : sizeAt s.heap.mem b.1 = unitsFor b.2)
    (hstep : FreeStep s blocks b lst s' blocks') : Covered lst s' blocks' := by
  refine ⟨hstep.arranged, fun c hc => ?_, fun chunk hchunk j hj => ?_⟩
  · rw [hstep.sizes c hc]
    exact h.sizes c (hstep.live.mem_iff.mpr (List.mem_cons_of_mem b hc))
  · obtain ⟨mem', hheap⟩ := hstep.heap
    have hobtained : s'.heap.obtained = s.heap.obtained := by rw [hheap]
    -- the freed block goes over to the free list with all its units
    have hmoved : (recorded s.heap.mem blocks ++ liveExtents s.live).Perm
        (recorded s.heap.mem (b.1 :: blocks) ++ liveExtents s'.live) := by
      have hlive : (liveExtents s.live).Perm
          ((b.1, sizeAt s.heap.mem b.1) :: liveExtents s'.live) := by
        rw [hsize]
        exact hstep.live.map _
      exact (hlive.append_left _).trans List.perm_middle
    apply covers_append.mpr
    rw [hobtained] at hchunk
    exact (covers_append.mp ((h.covers chunk hchunk j hj).perm hmoved)).imp_left
      (hstep.covers _)

theorem keeps_covered :
    Keeps lst fuel (Covered lst) fun s op => ValidFree s op ∧ Accounted lst fuel s op where
  arranged h := h.arranged
  range _ hok hnone hsome := (hok.2 hnone hsome).2
  malloc h hfuel hok hstep := h.malloc hfuel hok.2 hstep
  handed _ hok := by
    obtain ⟨b, hb, hptr⟩ := hok.1
    exact ⟨b, hb, hptr, hok.2 b hb hptr⟩
  free h hsize hstep := h.free hsize hstep

theorem covered_start {mem : Memory} {brk : Address} {sbrks : ℕ → Option ℕ}
    (hbrk : lst + sizeofHeader ≤ brk) : Covered lst (State.start lst mem brk sbrks) [] where
  arranged := arranged_start hbrk
  sizes b hb := by cases hb
  covers chunk hchunk := by cases hchunk

/-! ## Runs -/

/-- In every run of valid calls that are accounted for, each call returns and no unit is lost
in the state after it. -/
theorem units_conserved {mem : Memory} {brk : Address} {sbrks : ℕ → Option ℕ}
    (hbrk : lst + sizeofHeader ≤ brk) {ops : List Op} (hfuel : ops.length + 2 < fuel)
    (hops : Machine.Admits (step lst fuel)
      (InState fun t op => ValidFree t op ∧ Accounted lst fuel t op)
      (some (State.start lst mem brk sbrks)) ops) :
    ∃ s, (Machine.run (step lst fuel) (some (State.start lst mem brk sbrks)) ops).1 = some s ∧
      Conserved lst s := by
  obtain ⟨s, blocks, hrun, hcovered⟩ := keeps_covered.run (covered_start hbrk) hfuel hops
  exact ⟨s, hrun, hcovered.conserved⟩

/-- Two chunks are joined in the free list, and a part of them is handed out and freed again. -/
theorem units_conserved_sample :
    ∃ s, (Machine.run (step 0 10) (some contiguous)
      [.malloc 24552, .malloc 24552, .free 48, .free 24624, .malloc 24, .malloc 49080]).1 =
        some s ∧ Conserved 0 s :=
  units_conserved (by decide) (by decide) (by decide +kernel)

/-- When the first free block is its own successor, there is no other. -/
theorem eq_of_mem_freeBlocks {mem : Memory} {a b : Address} (hnext : nextOf mem a = a) {n : ℕ}
    (hb : b ∈ freeBlocks lst mem n a) : b = a := by
  induction n with
  | zero => cases hb
  | succ n ih =>
    rw [freeBlocks] at hb
    split at hb
    · cases hb
    · cases List.mem_cons.mp hb with
      | inl heq => exact heq
      | inr hrest =>
        change b ∈ freeBlocks lst mem n (nextOf mem a) at hrest
        rw [hnext] at hrest
        exact ih hrest

/-- The first block of two chunks is cut, freed with the size of the whole, and cut again. -/
def staleSession : List Op :=
  [.malloc 24552, .malloc 24552, .free 48, .malloc 24, .free 24624, .free 48, .malloc 24]

/-- The rest of a minimum chunk is recorded nowhere; and a block that was freed with a stale
size, when it is cut, overwrites the header that recorded the second chunk. -/
theorem units_lost :
    (Machine.Admits (step 0 10) (InState ValidFree) (some contiguous) [.malloc 27] ∧
      ¬ ∃ s, (Machine.run (step 0 10) (some contiguous) [.malloc 27]).1 = some s ∧
        Conserved 0 s) ∧
    (Machine.Admits (step 0 10) (InState ValidFree) (some contiguous) staleSession ∧
      ¬ ∃ s, (Machine.run (step 0 10) (some contiguous) staleSession).1 = some s ∧
        Conserved 0 s) := by
  refine ⟨⟨by decide +kernel, ?_⟩, by decide +kernel, ?_⟩
  · rintro ⟨s, hrun, hconserved⟩
    have hstate : (Machine.run (step 0 10) (some contiguous) [.malloc 27]).1.map (fun s =>
        (nextOf s.heap.mem 0, sizeAt s.heap.mem 24, s.live, s.heap.obtained)) =
        some (0, 3, [(24, 27)], [(24, 24576)]) := by decide +kernel
    rw [hrun, Option.map_some] at hstate
    simp only [Option.some.injEq, Prod.mk.injEq] at hstate
    obtain ⟨hnext, hsize, hlive, hobtained⟩ := hstate
    obtain ⟨n, a, ha, _, hstop⟩ := hconserved (24, 24576) (by rw [hobtained]; simp) 3 (by decide)
    change a ∈ freeBlocks 0 s.heap.mem n (nextOf s.heap.mem 0) ++ _ at ha
    rw [hnext, hlive] at ha
    have hfree : freeBlocks 0 s.heap.mem n 0 = [] := by cases n <;> simp [freeBlocks]
    rw [hfree] at ha
    obtain rfl : a = 24 := by simpa using ha
    rw [hsize] at hstop
    exact absurd hstop (by decide)
  · rintro ⟨s, hrun, hconserved⟩
    have hheaders : (Machine.run (step 0 10) (some contiguous) staleSession).1.map (fun s =>
        (nextOf s.heap.mem 0, nextOf s.heap.mem 72, sizeAt s.heap.mem 24, sizeAt s.heap.mem 72)) =
        some (72, 72, 1024, 1022) := by decide +kernel
    have hlists : (Machine.run (step 0 10) (some contiguous) staleSession).1.map (fun s =>
        (s.live, s.heap.obtained)) = some ([(24, 24)], [(24600, 24576), (24, 24576)]) := by
      decide +kernel
    rw [hrun, Option.map_some] at hheaders hlists
    simp only [Option.some.injEq, Prod.mk.injEq] at hheaders hlists
    obtain ⟨hnext, hself, hsize, hsize'⟩ := hheaders
    obtain ⟨hlive, hobtained⟩ := hlists
    obtain ⟨n, a, ha, _, hstop⟩ :=
      hconserved (24600, 24576) (by rw [hobtained]; simp) 0 (by decide)
    change a ∈ freeBlocks 0 s.heap.mem n (nextOf s.heap.mem 0) ++ _ at ha
    rw [hnext, hlive] at ha
    cases List.mem_append.mp ha with
    | inl hfree =>
      rw [eq_of_mem_freeBlocks hself hfree, hsize'] at hstop
      exact absurd hstop (by decide)
    | inr hblock =>
      obtain rfl : a = 24 := by simpa using hblock
      rw [hsize] at hstop
      exact absurd hstop (by decide)

end InterviewQuestions.Malloc

import InterviewQuestions.Library.Extents
import InterviewQuestions.Library.DoublyLinked
import InterviewQuestions.Malloc.Model

/-! The free list as a ring of headers: what the loops find in it and what linking,
unlinking and coalescing make of it. -/
namespace InterviewQuestions.Malloc

open Library Library.Extent

/-! ## Fields of the memory -/

def nextOf (mem : Memory) (a : Address) : Address := (mem a).next
def prevOf (mem : Memory) (a : Address) : Address := (mem a).prev
def sizeAt (mem : Memory) (a : Address) : ℕ := (mem a).size

section Fields

variable (mem : Memory) (a value : Address)

@[simp] theorem nextOf_setNext :
    nextOf (setNext mem a value) = Function.update (nextOf mem) a value := by
  funext b
  by_cases hb : b = a <;> simp [nextOf, setNext, hb]

@[simp] theorem nextOf_setPrev : nextOf (setPrev mem a value) = nextOf mem := by
  funext b
  by_cases hb : b = a <;> simp [nextOf, setPrev, hb]

@[simp] theorem nextOf_setSize : nextOf (setSize mem a value) = nextOf mem := by
  funext b
  by_cases hb : b = a <;> simp [nextOf, setSize, hb]

@[simp] theorem prevOf_setNext : prevOf (setNext mem a value) = prevOf mem := by
  funext b
  by_cases hb : b = a <;> simp [prevOf, setNext, hb]

@[simp] theorem prevOf_setPrev :
    prevOf (setPrev mem a value) = Function.update (prevOf mem) a value := by
  funext b
  by_cases hb : b = a <;> simp [prevOf, setPrev, hb]

@[simp] theorem prevOf_setSize : prevOf (setSize mem a value) = prevOf mem := by
  funext b
  by_cases hb : b = a <;> simp [prevOf, setSize, hb]

@[simp] theorem sizeAt_setNext : sizeAt (setNext mem a value) = sizeAt mem := by
  funext b
  by_cases hb : b = a <;> simp [sizeAt, setNext, hb]

@[simp] theorem sizeAt_setPrev : sizeAt (setPrev mem a value) = sizeAt mem := by
  funext b
  by_cases hb : b = a <;> simp [sizeAt, setPrev, hb]

@[simp] theorem sizeAt_setSize :
    sizeAt (setSize mem a value) = Function.update (sizeAt mem) a value := by
  funext b
  by_cases hb : b = a <;> simp [sizeAt, setSize, hb]

end Fields

/-- The value written is the one that was read at `b`, so a read at `b` gives it either way. -/
theorem update_read (f : Address → Address) (a b : Address) :
    Function.update f a (f b) b = f b := by
  by_cases hb : b = a
  · rw [hb, Function.update_self]
  · rw [Function.update_of_ne hb]

theorem unlink_fields (mem : Memory) (block : Address) :
    nextOf (unlink mem block) =
        Function.update (nextOf mem) (prevOf mem block) (nextOf mem block) ∧
      prevOf (unlink mem block) =
        Function.update (prevOf mem) (nextOf mem block) (prevOf mem block) ∧
      sizeAt (unlink mem block) = sizeAt mem := by
  let mem₁ := setNext mem (prevOf mem block) (nextOf mem block)
  have hunlink : unlink mem block = setPrev mem₁ (nextOf mem₁ block) (prevOf mem₁ block) := rfl
  have hnext : nextOf mem₁ block = nextOf mem block := by
    rw [nextOf_setNext, update_read]
  rw [hunlink, hnext]
  simp [mem₁]

theorem splitBlock_fields {mem : Memory} {block : Address} {units : ℕ} (hunits : 0 < units)
    (hprev : prevOf mem block ≠ block) :
    let newBlock := block + sizeofHeader * units
    nextOf (splitBlock mem block units) = Function.update
        (Function.update (nextOf mem) newBlock (nextOf mem block)) (prevOf mem block) newBlock ∧
      prevOf (splitBlock mem block units) = Function.update
        (Function.update (prevOf mem) newBlock (prevOf mem block)) (nextOf mem block) newBlock ∧
      sizeAt (splitBlock mem block units) =
        Function.update (sizeAt mem) newBlock (sizeAt mem block - units) := by
  intro newBlock
  have hne : block ≠ newBlock :=
    Nat.ne_of_lt (Nat.lt_add_of_pos_right (Nat.mul_pos (by decide) hunits))
  let mem₁ := setSize mem newBlock (sizeAt mem block - units)
  let mem₂ := setPrev mem₁ newBlock (prevOf mem₁ block)
  let mem₃ := setNext mem₂ newBlock (nextOf mem₂ block)
  let mem₄ := setNext mem₃ (prevOf mem₃ block) newBlock
  have hsplit : splitBlock mem block units = setPrev mem₄ (nextOf mem₄ block) newBlock := rfl
  have hprev₃ : prevOf mem₃ block = prevOf mem block := by
    simp [mem₃, mem₂, mem₁, Function.update_of_ne hne]
  have hnext₄ : nextOf mem₄ block = nextOf mem block := by
    simp only [mem₄]
    rw [nextOf_setNext, hprev₃, Function.update_of_ne hprev.symm]
    simp [mem₃, mem₂, mem₁, Function.update_of_ne hne]
  rw [hsplit, hnext₄]
  simp only [mem₄]
  rw [hprev₃]
  simp [mem₃, mem₂, mem₁]

theorem insertFree_fields (mem : Memory) {toFree right : Address} (hne : toFree ≠ right) :
    nextOf (insertFree mem toFree right) = Function.update
        (Function.update (nextOf mem) toFree right) (prevOf mem right) toFree ∧
      prevOf (insertFree mem toFree right) = Function.update
        (Function.update (prevOf mem) toFree (prevOf mem right)) right toFree ∧
      sizeAt (insertFree mem toFree right) = sizeAt mem := by
  let mem₁ := setNext mem toFree right
  let mem₂ := setPrev mem₁ toFree (prevOf mem₁ right)
  let mem₃ := setPrev mem₂ right toFree
  have hinsert : insertFree mem toFree right = setNext mem₃ (prevOf mem₃ toFree) toFree := rfl
  have hprev₃ : prevOf mem₃ toFree = prevOf mem right := by
    simp [mem₃, mem₂, mem₁, Function.update_of_ne hne]
  rw [hinsert, hprev₃]
  simp [mem₃, mem₂, mem₁]

theorem coalesceRight_fields {mem : Memory} {toFree right : Address}
    (hmeet : toFree + sizeofHeader * sizeAt mem toFree = right) :
    nextOf (coalesceRight mem toFree right) =
        Function.update (nextOf mem) toFree (nextOf mem right) ∧
      prevOf (coalesceRight mem toFree right) =
        Function.update (prevOf mem) (nextOf mem right) toFree ∧
      sizeAt (coalesceRight mem toFree right) =
        Function.update (sizeAt mem) toFree (sizeAt mem toFree + sizeAt mem right) := by
  let mem₁ := setSize mem toFree (sizeAt mem toFree + sizeAt mem right)
  let mem₂ := setPrev mem₁ (nextOf mem₁ right) toFree
  have hcoalesce : coalesceRight mem toFree right = setNext mem₂ toFree (nextOf mem₂ right) :=
    if_pos hmeet
  rw [hcoalesce]
  simp [mem₂, mem₁]

theorem coalesceLeft_fields {mem : Memory} {toFree : Address}
    (hmeet : prevOf mem toFree + sizeofHeader * sizeAt mem (prevOf mem toFree) = toFree) :
    nextOf (coalesceLeft mem toFree) =
        Function.update (nextOf mem) (prevOf mem toFree) (nextOf mem toFree) ∧
      prevOf (coalesceLeft mem toFree) =
        Function.update (prevOf mem) (nextOf mem toFree) (prevOf mem toFree) ∧
      sizeAt (coalesceLeft mem toFree) = Function.update (sizeAt mem) (prevOf mem toFree)
        (sizeAt mem (prevOf mem toFree) + sizeAt mem toFree) := by
  let mem₁ := setSize mem (prevOf mem toFree)
    (sizeAt mem (prevOf mem toFree) + sizeAt mem toFree)
  let mem₂ := setNext mem₁ (prevOf mem₁ toFree) (nextOf mem₁ toFree)
  have hcoalesce : coalesceLeft mem toFree =
      setPrev mem₂ (nextOf mem₂ toFree) (prevOf mem₂ toFree) := if_pos hmeet
  have hnext₂ : nextOf mem₂ toFree = nextOf mem toFree := by
    simp only [mem₂]
    rw [nextOf_setNext, update_read]
    simp [mem₁]
  rw [hcoalesce, hnext₂]
  simp [mem₂, mem₁]

/-! ## The loops -/

abbrev FreeList (lst : Address) (mem : Memory) (blocks : List Address) : Prop :=
  DoublyLinked (nextOf mem) (prevOf mem) lst blocks

variable {lst : Address} {mem : Memory} {blocks : List Address}

/-- A loop stops at the first block that it does not skip, or at the head of the list. -/
theorem scan_from {skip : Address → Bool} {fuel : ℕ} {rest after : List Address} {start : Address}
    (hstart : rest ++ [lst] = start :: after)
    (hlinks : List.IsChain (Link (nextOf mem) (prevOf mem)) (rest ++ [lst])) (hlst : lst ∉ rest)
    (hfuel : rest.length < fuel) :
    ∃ left right n back, rest = left ++ right ∧ right ++ [lst] = n :: back ∧
      scan lst mem skip fuel start = some n ∧ (∀ a ∈ left, skip a) ∧ (n ≠ lst → ¬ skip n) := by
  induction rest generalizing fuel start after with
  | nil =>
    obtain ⟨fuel, rfl⟩ := Nat.exists_eq_succ_of_ne_zero (Nat.ne_of_gt hfuel)
    obtain ⟨rfl, _⟩ := List.cons.inj hstart
    exact ⟨[], [], lst, [], rfl, rfl, by simp [scan], by simp, fun h => absurd rfl h⟩
  | cons a rest ih =>
    obtain ⟨fuel, rfl⟩ := Nat.exists_eq_succ_of_ne_zero (Nat.ne_of_gt (Nat.zero_lt_of_lt hfuel))
    obtain ⟨rfl, _⟩ := List.cons.inj hstart
    have ha : a ≠ lst := fun heq => hlst (heq ▸ List.mem_cons_self)
    by_cases hskip : skip a = true
    · obtain ⟨⟨after', hb⟩, htail⟩ := DoublyLinked.links_step hlinks
      obtain ⟨left, right, n, back, rfl, hn, hscan, hleft, hstop⟩ :=
        ih hb htail (fun hmem => hlst (List.mem_cons_of_mem _ hmem))
          (Nat.lt_of_succ_lt_succ hfuel)
      refine ⟨a :: left, right, n, back, rfl, hn, ?_,
        List.forall_mem_cons.mpr ⟨hskip, hleft⟩, hstop⟩
      rw [scan, if_pos ⟨ha, hskip⟩]
      exact hscan
    · refine ⟨[], a :: rest, a, rest ++ [lst], rfl, rfl, ?_, by simp, fun _ => hskip⟩
      rw [scan, if_neg fun h => hskip h.2]

theorem scan_spec (h : FreeList lst mem blocks) (skip : Address → Bool) {fuel : ℕ}
    (hfuel : blocks.length < fuel) :
    ∃ left right n back, blocks = left ++ right ∧ right ++ [lst] = n :: back ∧
      scan lst mem skip fuel (mem lst).next = some n ∧ (∀ a ∈ left, skip a) ∧
      (n ≠ lst → ¬ skip n) := by
  obtain ⟨back, hback⟩ := h.next_head
  exact scan_from hback h.links.tail (List.nodup_cons.mp h.nodup).1 hfuel

/-- The blocks that following `next` meets. -/
def freeBlocks (lst : Address) (mem : Memory) : ℕ → Address → List Address
  | 0, _ => []
  | fuel + 1, block => if block = lst then [] else block :: freeBlocks lst mem fuel (mem block).next

theorem freeBlocks_from {fuel : ℕ} {rest after : List Address} {start : Address}
    (hstart : rest ++ [lst] = start :: after)
    (hlinks : List.IsChain (Link (nextOf mem) (prevOf mem)) (rest ++ [lst])) (hlst : lst ∉ rest)
    (hfuel : rest.length ≤ fuel) : freeBlocks lst mem fuel start = rest := by
  induction rest generalizing fuel start after with
  | nil =>
    obtain ⟨rfl, _⟩ := List.cons.inj hstart
    cases fuel <;> simp [freeBlocks]
  | cons a rest ih =>
    obtain ⟨fuel, rfl⟩ := Nat.exists_eq_succ_of_ne_zero (Nat.ne_of_gt (Nat.zero_lt_of_lt hfuel))
    obtain ⟨rfl, _⟩ := List.cons.inj hstart
    have ha : a ≠ lst := fun heq => hlst (heq ▸ List.mem_cons_self)
    obtain ⟨⟨after', hb⟩, htail⟩ := DoublyLinked.links_step hlinks
    rw [freeBlocks, if_neg ha]
    exact congrArg (a :: ·) (ih hb htail (fun hmem => hlst (List.mem_cons_of_mem _ hmem))
      (Nat.le_of_succ_le_succ hfuel))

theorem freeBlocks_eq (h : FreeList lst mem blocks) {fuel : ℕ} (hfuel : blocks.length ≤ fuel) :
    freeBlocks lst mem fuel (mem lst).next = blocks := by
  obtain ⟨back, hback⟩ := h.next_head
  exact freeBlocks_from hback h.links.tail (List.nodup_cons.mp h.nodup).1 hfuel

/-! ## Extents -/

/-- The extents of blocks, by the sizes recorded in their headers. -/
def recorded (mem : Memory) (blocks : List Address) : List Extent :=
  blocks.map fun a => (a, sizeAt mem a)

theorem mem_recorded {a : Address} (h : a ∈ blocks) : (a, sizeAt mem a) ∈ recorded mem blocks :=
  List.mem_map_of_mem (f := fun a => (a, sizeAt mem a)) h

theorem recorded_congr {mem' : Memory} {blocks : List Address}
    (h : ∀ a ∈ blocks, sizeAt mem' a = sizeAt mem a) : recorded mem' blocks = recorded mem blocks :=
  List.map_congr_left fun a ha => by rw [h a ha]

theorem recorded_perm {blocks' : List Address} (h : blocks.Perm blocks') :
    (recorded mem blocks).Perm (recorded mem blocks') :=
  h.map _

/-- A header is written for a block that is not on the list. -/
theorem recorded_setSize {a : Address} (h : a ∉ blocks) (units : ℕ) :
    recorded (setSize mem a units) (a :: blocks) = (a, units) :: recorded mem blocks := by
  have hself : sizeAt (setSize mem a units) a = units := by
    rw [sizeAt_setSize, Function.update_self]
  have hrest : recorded (setSize mem a units) blocks = recorded mem blocks := by
    apply recorded_congr
    intro b hb
    rw [sizeAt_setSize, Function.update_of_ne]
    rintro rfl
    exact h hb
  calc recorded (setSize mem a units) (a :: blocks)
      = (a, sizeAt (setSize mem a units) a) :: recorded (setSize mem a units) blocks := rfl
    _ = (a, units) :: recorded mem blocks := by rw [hself, hrest]

/-- Coalescing: `a` takes over the block `b` that comes after it and where it ends. -/
theorem FreeList.absorb {left right : List Address} {a b : Address} {mem' : Memory}
    (h : FreeList lst mem (left ++ a :: b :: right))
    (hmeet : a + sizeofHeader * sizeAt mem a = b)
    (hnext : nextOf mem' = Function.update (nextOf mem) a (nextOf mem b))
    (hprev : prevOf mem' = Function.update (prevOf mem) (nextOf mem b) a)
    (hsize : sizeAt mem' = Function.update (sizeAt mem) a (sizeAt mem a + sizeAt mem b)) :
    FreeList lst mem' (left ++ a :: right) ∧
      Merged sizeofHeader (recorded mem (left ++ a :: b :: right))
        (recorded mem' (left ++ a :: right)) := by
  have happend : left ++ a :: b :: right = (left ++ [a]) ++ b :: right := by simp
  have hab : prevOf mem b = a := by
    have hlinks := h.links
    have hsplit : lst :: (left ++ a :: b :: right ++ [lst]) =
        (lst :: left) ++ a :: b :: (right ++ [lst]) := by simp
    rw [hsplit, List.isChain_append_cons_cons] at hlinks
    exact hlinks.2.1.2
  have hnodup : a ∉ left ++ right := by
    have hmiddle : (left ++ a :: b :: right).Nodup := (List.nodup_cons.mp h.nodup).2
    have hsub : (left ++ a :: right).Sublist (left ++ a :: b :: right) :=
      ((List.sublist_cons_self b right).cons_cons a).append_left left
    exact (List.nodup_middle.mp (hmiddle.sublist hsub)).notMem
  constructor
  · have hremoved := (happend ▸ h).remove
    rw [hab, ← hnext, ← hprev, List.append_assoc, List.singleton_append] at hremoved
    exact hremoved
  · have hstart : Merged sizeofHeader (recorded mem (left ++ a :: b :: right))
        ((a, sizeAt mem a) :: (a + sizeofHeader * sizeAt mem a, sizeAt mem b) ::
          recorded mem (left ++ right)) := by
      apply Merged.refl.perm
      rw [hmeet]
      exact recorded_perm ((List.perm_middle.trans
        (List.Perm.cons a List.perm_middle)) : (left ++ a :: b :: right).Perm _)
    apply hstart.join.perm
    have hself : sizeAt mem' a = sizeAt mem a + sizeAt mem b := by
      rw [hsize, Function.update_self]
    have hrest : recorded mem' (left ++ right) = recorded mem (left ++ right) := by
      apply recorded_congr
      intro c hc
      rw [hsize, Function.update_of_ne]
      rintro rfl
      exact hnodup hc
    rw [← hself, ← hrest]
    exact recorded_perm List.perm_middle.symm

/-! ## `free` -/

/-- What `free` makes of the list: the freed block is in it, joined with its neighbours where
they meet, and the other headers keep their sizes. -/
structure Freed (lst : Address) (mem : Memory) (blocks : List Address) (toFree : Address)
    (mem' : Memory) (blocks' : List Address) : Prop where
  ring : FreeList lst mem' blocks'
  joined : Merged sizeofHeader (recorded mem (toFree :: blocks)) (recorded mem' blocks')
  sizes : ∀ a, a ∉ toFree :: blocks → sizeAt mem' a = sizeAt mem a
  alone : (∀ a ∈ blocks, toFree + sizeofHeader * sizeAt mem toFree ≠ a ∧
    a + sizeofHeader * sizeAt mem a ≠ toFree) → blocks'.Perm (toFree :: blocks) ∧
      sizeAt mem' = sizeAt mem

/-- The block is linked in and not coalesced yet. -/
theorem freed_insert {toFree n : Address} {left right back : List Address}
    (h : FreeList lst mem (left ++ right)) (hn : right ++ [lst] = n :: back)
    (hfresh : toFree ∉ lst :: (left ++ right)) :
    Freed lst mem (left ++ right) toFree (insertFree mem toFree n) (left ++ toFree :: right) ∧
      sizeAt (insertFree mem toFree n) = sizeAt mem := by
  have hne : toFree ≠ n := by
    rintro rfl
    have hmem : toFree ∈ right ++ [lst] := by rw [hn]; exact List.mem_cons_self
    cases List.mem_append.mp hmem with
    | inl hr => exact hfresh (List.mem_cons_of_mem _ (List.mem_append_right _ hr))
    | inr hh => exact hfresh (List.mem_singleton.mp hh ▸ List.mem_cons_self)
  obtain ⟨hnext, hprev, hsize⟩ := insertFree_fields mem hne
  have hperm : (left ++ toFree :: right).Perm (toFree :: (left ++ right)) := List.perm_middle
  refine ⟨⟨?_, ?_, fun a _ => by rw [hsize], fun _ => ⟨hperm, hsize⟩⟩, hsize⟩
  · rw [FreeList, hnext, hprev]
    exact h.insert hn hfresh
  · rw [recorded_congr fun a _ => congrFun hsize a]
    exact Merged.refl.perm (recorded_perm hperm.symm)

/-- Coalescing two neighbours that meet, one of which is the freed block. -/
theorem Freed.absorb {toFree a b : Address} {left right : List Address} {mem₁ mem₂ : Memory}
    (h : Freed lst mem blocks toFree mem₁ (left ++ a :: b :: right)) (ha : a ∈ toFree :: blocks)
    (hmeet : a + sizeofHeader * sizeAt mem₁ a = b)
    (hfields : nextOf mem₂ = Function.update (nextOf mem₁) a (nextOf mem₁ b) ∧
      prevOf mem₂ = Function.update (prevOf mem₁) (nextOf mem₁ b) a ∧
      sizeAt mem₂ = Function.update (sizeAt mem₁) a (sizeAt mem₁ a + sizeAt mem₁ b))
    (hmeets : ¬ ∀ a ∈ blocks, toFree + sizeofHeader * sizeAt mem toFree ≠ a ∧
      a + sizeofHeader * sizeAt mem a ≠ toFree) :
    Freed lst mem blocks toFree mem₂ (left ++ a :: right) := by
  obtain ⟨hring, hjoined⟩ := FreeList.absorb h.ring hmeet hfields.1 hfields.2.1 hfields.2.2
  refine ⟨hring, h.joined.trans hjoined, fun c hc => ?_, fun halone => absurd halone hmeets⟩
  rw [hfields.2.2, Function.update_of_ne, h.sizes c hc]
  rintro rfl
  exact hc ha

theorem Freed.coalesceRight {toFree n : Address} {left right back : List Address} {mem₁ : Memory}
    (h : Freed lst mem blocks toFree mem₁ (left ++ toFree :: right))
    (hn : right ++ [lst] = n :: back) (hblocks : ∀ a ∈ right, a ∈ blocks) (hlt : lst < toFree)
    (hsize : sizeAt mem₁ = sizeAt mem) :
    ∃ right', Freed lst mem blocks toFree (coalesceRight mem₁ toFree n)
        (left ++ toFree :: right') ∧
      ∀ a, a ≠ toFree → sizeAt (Malloc.coalesceRight mem₁ toFree n) a = sizeAt mem a := by
  by_cases hmeet : toFree + sizeofHeader * sizeAt mem₁ toFree = n
  · have hfields := coalesceRight_fields hmeet
    cases right with
    | nil =>
      obtain ⟨rfl, _⟩ := List.cons.inj hn
      exact absurd hmeet (Nat.ne_of_gt (Nat.lt_of_lt_of_le hlt (Nat.le_add_right _ _)))
    | cons b right =>
      obtain ⟨rfl, _⟩ := List.cons.inj hn
      refine ⟨right, h.absorb List.mem_cons_self hmeet hfields fun halone => ?_, fun a ha => ?_⟩
      · rw [hsize] at hmeet
        exact (halone b (hblocks b List.mem_cons_self)).1 hmeet
      · rw [hfields.2.2, Function.update_of_ne ha, hsize]
  · have hsame : Malloc.coalesceRight mem₁ toFree n = mem₁ := if_neg hmeet
    rw [hsame]
    exact ⟨right, h, fun a _ => congrFun hsize a⟩

theorem Freed.coalesceLeft {toFree : Address} {left right : List Address} {mem₁ : Memory}
    (h : Freed lst mem blocks toFree mem₁ (left ++ toFree :: right))
    (hblocks : ∀ a ∈ left, a ∈ blocks) (hfresh : toFree ∉ blocks) (hlt : lst < toFree)
    (hhead : sizeAt mem lst = 0) (hsize : ∀ a, a ≠ toFree → sizeAt mem₁ a = sizeAt mem a) :
    ∃ blocks', Freed lst mem blocks toFree (coalesceLeft mem₁ toFree) blocks' := by
  by_cases hmeet : prevOf mem₁ toFree + sizeofHeader * sizeAt mem₁ (prevOf mem₁ toFree) = toFree
  · have hfields := coalesceLeft_fields hmeet
    obtain ⟨⟨front, hfront⟩, _⟩ := h.ring.around
    cases front with
    | nil =>
      -- the head of the list has size 0, so it ends where it starts
      obtain ⟨hprev, _⟩ := List.cons.inj hfront
      rw [← hprev, hsize lst (Nat.ne_of_lt hlt), hhead] at hmeet
      exact absurd hmeet (Nat.ne_of_lt hlt)
    | cons c front =>
      obtain rfl : left = front ++ [prevOf mem₁ toFree] := (List.cons.inj hfront).2
      have hprev : prevOf mem₁ toFree ∈ blocks := hblocks _ (by simp)
      rw [List.append_assoc, List.singleton_append] at h
      refine ⟨_, h.absorb (List.mem_cons_of_mem _ hprev) hmeet hfields fun halone => ?_⟩
      rw [hsize _ fun heq => hfresh (heq ▸ hprev)] at hmeet
      exact (halone _ hprev).2 hmeet
  · have hsame : Malloc.coalesceLeft mem₁ toFree = mem₁ := if_neg hmeet
    rw [hsame]
    exact ⟨_, h⟩

theorem free_spec {toFree : Address} {fuel : ℕ} (h : FreeList lst mem blocks)
    (hfresh : toFree ∉ blocks) (hlt : lst < toFree) (hhead : sizeAt mem lst = 0)
    (hfuel : blocks.length < fuel) :
    ∃ mem' blocks', free lst fuel mem (toFree + sizeofHeader) = some mem' ∧
      Freed lst mem blocks toFree mem' blocks' := by
  obtain ⟨left, right, n, back, rfl, hn, hscan, _⟩ := scan_spec h (· < toFree) hfuel
  have hfresh' : toFree ∉ lst :: (left ++ right) := by
    rw [List.mem_cons, not_or]
    exact ⟨Nat.ne_of_gt hlt, hfresh⟩
  obtain ⟨hinsert, hsize⟩ := freed_insert h hn hfresh'
  obtain ⟨right', hright, hsizes⟩ :=
    hinsert.coalesceRight hn (fun a ha => List.mem_append_right _ ha) hlt hsize
  obtain ⟨blocks', hleft⟩ :=
    hright.coalesceLeft (fun a ha => List.mem_append_left _ ha) hfresh hlt hhead hsizes
  refine ⟨_, blocks', ?_, hleft⟩
  simp only [free, Nat.add_sub_cancel, hscan, Option.map_some]

end InterviewQuestions.Malloc

import InterviewQuestions.Library.Extents
import InterviewQuestions.Malloc.FreeList

/-! `free` on a list in increasing order with gaps between its blocks, wherever the
head of the list lies. The extents of the new list are the old ones and the freed one,
coalesced. -/
namespace InterviewQuestions.Malloc

open Library Library.Extent

variable {lst toFree fuel : ℕ} {mem mem' : Memory} {blocks : List ℕ}

/-- The blocks increase, and neither overlap nor meet each other or the head of the list. -/
structure WellFormed (lst : Address) (mem : Memory) (blocks : List Address) : Prop where
  ring : FreeList lst mem blocks
  head : sizeAt mem lst = 0
  positive : ∀ a ∈ blocks, 0 < sizeAt mem a
  increasing : blocks.Pairwise fun a b : ℕ => a < b
  spaced : (recorded mem blocks).Pairwise (Spaced sizeofHeader)
  headSpaced : ∀ e ∈ recorded mem blocks, Spaced sizeofHeader e (lst, 1)

/-- The block shares nothing with the list, and does not meet its head. -/
structure Freeable (lst : Address) (mem : Memory) (blocks : List Address) (toFree : Address) :
    Prop where
  positive : 0 < sizeAt mem toFree
  apart : ∀ e ∈ recorded mem blocks, Apart sizeofHeader (toFree, sizeAt mem toFree) e
  headSpaced : Spaced sizeofHeader (toFree, sizeAt mem toFree) (lst, 1)

theorem recorded_append (mem : Memory) (left right : List Address) :
    recorded mem (left ++ right) = recorded mem left ++ recorded mem right := List.map_append

theorem recorded_cons (mem : Memory) (a : Address) (blocks : List Address) :
    recorded mem (a :: blocks) = (a, sizeAt mem a) :: recorded mem blocks := rfl

theorem gaps_recorded :
    Gaps sizeofHeader (recorded mem blocks) ↔
      (blocks.Pairwise fun a b : ℕ => a < b) ∧
        (recorded mem blocks).Pairwise (Spaced sizeofHeader) := by
  unfold Gaps recorded
  rw [List.pairwise_map, List.pairwise_map, ← List.pairwise_and_iff]
  apply List.Pairwise.iff
  intro a b
  simp only [Spaced, stop]
  omega

theorem WellFormed.gaps (h : WellFormed lst mem blocks) :
    Gaps sizeofHeader (recorded mem blocks) :=
  gaps_recorded.mpr ⟨h.increasing, h.spaced⟩

/-! ## One step of coalescing -/

theorem coalesce_step {a n : Address} {left right back : List Address}
    (h : FreeList lst mem (left ++ a :: right)) (hn : right ++ [lst] = n :: back)
    (hlst : stop sizeofHeader (a, sizeAt mem a) ≠ lst)
    (hmeet : stop sizeofHeader (a, sizeAt mem a) = n →
      nextOf mem' = Function.update (nextOf mem) a (nextOf mem n) ∧
      prevOf mem' = Function.update (prevOf mem) (nextOf mem n) a ∧
      sizeAt mem' = Function.update (sizeAt mem) a (sizeAt mem a + sizeAt mem n))
    (hsame : stop sizeofHeader (a, sizeAt mem a) ≠ n → mem' = mem) :
    ∃ right', FreeList lst mem' (left ++ a :: right') ∧
      recorded mem' (left ++ a :: right') =
        recorded mem left ++ join sizeofHeader (a, sizeAt mem a) (recorded mem right) ∧
      sizeAt mem' lst = sizeAt mem lst := by
  cases right with
  | nil =>
    obtain ⟨rfl, _⟩ := List.cons.inj hn
    rw [hsame hlst]
    exact ⟨[], h, recorded_append mem left [a], rfl⟩
  | cons b right =>
    obtain ⟨rfl, _⟩ := List.cons.inj hn
    by_cases hm : stop sizeofHeader (a, sizeAt mem a) = b
    · rcases hmeet hm with ⟨hnext, hprev, hsize⟩
      have hring := (FreeList.absorb h hm hnext hprev hsize).1
      have hnodup := List.nodup_cons.mp hring.nodup
      have hself : sizeAt mem' a = sizeAt mem a + sizeAt mem b := by
        rw [hsize, Function.update_self]
      have hother : ∀ c, c ≠ a → sizeAt mem' c = sizeAt mem c := by
        intro c hc
        rw [hsize, Function.update_of_ne hc]
      have hmiddle := List.nodup_middle.mp hnodup.2
      have hleft : recorded mem' left = recorded mem left := by
        apply recorded_congr
        intro c hc
        exact hother c fun hca => hmiddle.notMem (hca ▸ List.mem_append_left _ hc)
      have hright : recorded mem' right = recorded mem right := by
        apply recorded_congr
        intro c hc
        exact hother c fun hca => hmiddle.notMem (hca ▸ List.mem_append_right _ hc)
      refine ⟨right, hring, ?_, hother lst ?_⟩
      · rw [recorded_append, recorded_cons, hself, hleft, hright, recorded_cons, join_of_meet hm]
      · rintro rfl
        exact hnodup.1 (by simp)
    · rw [hsame hm]
      refine ⟨b :: right, h, ?_, rfl⟩
      rw [recorded_append, recorded_cons, recorded_cons, join_of_apart hm]

/-- Both tests of `free` look at a block and the one after it in the ring. -/
theorem coalesceRight_step {n : Address} {left right back : List Address}
    (h : FreeList lst mem (left ++ toFree :: right)) (hn : right ++ [lst] = n :: back)
    (hlst : stop sizeofHeader (toFree, sizeAt mem toFree) ≠ lst) :
    ∃ right', FreeList lst (coalesceRight mem toFree n) (left ++ toFree :: right') ∧
      recorded (coalesceRight mem toFree n) (left ++ toFree :: right') =
        recorded mem left ++ join sizeofHeader (toFree, sizeAt mem toFree) (recorded mem right) ∧
      sizeAt (coalesceRight mem toFree n) lst = sizeAt mem lst :=
  coalesce_step h hn hlst (fun hmeet => coalesceRight_fields hmeet) fun hne => if_neg hne

theorem coalesceLeft_step {c : Address} {front right : List Address}
    (h : FreeList lst mem (front ++ c :: toFree :: right))
    (hlst : stop sizeofHeader (c, sizeAt mem c) ≠ lst) :
    ∃ right', FreeList lst (coalesceLeft mem toFree) (front ++ c :: right') ∧
      recorded (coalesceLeft mem toFree) (front ++ c :: right') = recorded mem front ++
        join sizeofHeader (c, sizeAt mem c) (recorded mem (toFree :: right)) ∧
      sizeAt (coalesceLeft mem toFree) lst = sizeAt mem lst := by
  have hmiddle : FreeList lst mem ((front ++ [c]) ++ toFree :: right) := by
    rwa [List.append_assoc]
  rcases hmiddle.around.1 with ⟨front', hfront⟩
  have hprev : prevOf mem toFree = c := by
    rw [← List.cons_append] at hfront
    exact (List.append_inj_right' hfront rfl |> List.cons.inj).1.symm
  apply coalesce_step h List.cons_append hlst
  · intro hmeet
    have hends : prevOf mem toFree + sizeofHeader * sizeAt mem (prevOf mem toFree) = toFree := by
      rwa [hprev]
    have hfields := coalesceLeft_fields hends
    rwa [hprev] at hfields
  · intro hne
    apply if_neg
    show prevOf mem toFree + sizeofHeader * sizeAt mem (prevOf mem toFree) ≠ toFree
    rwa [hprev]

/-- The head has size 0, so nothing is joined with it on the left. -/
theorem coalesceLeft_head {right : List Address} (h : FreeList lst mem (toFree :: right))
    (hhead : sizeAt mem lst = 0) (hne : toFree ≠ lst) : coalesceLeft mem toFree = mem := by
  rcases (show FreeList lst mem ([] ++ toFree :: right) from h).around.1 with ⟨front, hfront⟩
  have hprev : prevOf mem toFree = lst := by
    cases front with
    | nil => exact (List.cons.inj hfront).1.symm
    | cons a front => simp at hfront
  apply if_neg
  show prevOf mem toFree + sizeofHeader * sizeAt mem (prevOf mem toFree) ≠ toFree
  rw [hprev, hhead]
  exact hne.symm

/-! ## `free` -/

theorem Freeable.notMem (h : Freeable lst mem blocks toFree) : toFree ∉ lst :: blocks := by
  have hpos : 0 < sizeofHeader * sizeAt mem toFree := Nat.mul_pos (by decide) h.positive
  intro hmem
  rcases List.mem_cons.mp hmem with rfl | hmem
  · have hspaced := h.headSpaced
    simp only [Spaced, stop] at hspaced
    omega
  · have hapart := h.apart _ (mem_recorded hmem)
    simp only [Apart, stop] at hapart
    omega

/-- The blocks from the one where the loop stops lie above. -/
theorem start_le {left right back : List ℕ} {n a : ℕ} (h : WellFormed lst mem (left ++ right))
    (hn : right ++ [lst] = n :: back) (hstop : n ≠ lst → ¬ n < toFree) (ha : a ∈ right) :
    toFree ≤ a := by
  cases right with
  | nil => cases ha
  | cons b right =>
    rcases List.cons.inj hn with ⟨rfl, _⟩
    have hlst : b ≠ lst := by
      rintro rfl
      exact (List.nodup_cons.mp h.ring.nodup).1 (by simp)
    have hb : toFree ≤ b := Nat.le_of_not_lt (hstop hlst)
    have hpairwise := (List.pairwise_append.mp h.increasing).2.1
    rcases List.mem_cons.mp ha with rfl | ha
    · exact hb
    · exact hb.trans (Nat.le_of_lt ((List.pairwise_cons.mp hpairwise).1 a ha))

/-- The loop stops where the block belongs. -/
theorem increasing_insert {left right back : List ℕ} {n : ℕ}
    (h : WellFormed lst mem (left ++ right)) (hfree : Freeable lst mem (left ++ right) toFree)
    (hn : right ++ [lst] = n :: back) (hskip : ∀ a ∈ left, a < toFree)
    (hstop : n ≠ lst → ¬ n < toFree) :
    Increasing sizeofHeader (recorded mem (left ++ toFree :: right)) := by
  have hgaps := h.gaps
  rw [recorded_append] at hgaps
  have hsplit := List.pairwise_append.mp hgaps
  have hbefore : ∀ e ∈ recorded mem left, stop sizeofHeader e ≤ toFree := by
    intro e he
    rcases List.mem_map.mp he with ⟨a, ha, rfl⟩
    have hlt : a < toFree := hskip a ha
    have hapart := hfree.apart _ (mem_recorded (List.mem_append_left right ha))
    simp only [Apart, stop] at hapart ⊢
    omega
  have hafter : ∀ e ∈ recorded mem right, stop sizeofHeader (toFree, sizeAt mem toFree) ≤ e.1 := by
    intro e he
    rcases List.mem_map.mp he with ⟨a, ha, rfl⟩
    have hge : toFree ≤ a := start_le h hn hstop ha
    have hapart := hfree.apart _ (mem_recorded (List.mem_append_right left ha))
    have hpos : 0 < sizeofHeader * sizeAt mem a :=
      Nat.mul_pos (by decide) (h.positive a (List.mem_append_right left ha))
    simp only [Apart, stop] at hapart ⊢
    omega
  rw [recorded_append, recorded_cons]
  apply List.pairwise_append.mpr
  apply And.intro (Gaps.increasing hsplit.1)
  apply And.intro (List.pairwise_cons.mpr ⟨hafter, Gaps.increasing hsplit.2.1⟩)
  intro e he f hf
  rcases List.mem_cons.mp hf with rfl | hf
  · exact hbefore e he
  · exact Nat.le_of_lt (hsplit.2.2 e he f hf)

/-- The block is put in, and joined with the one after it where they meet. -/
theorem insert_coalesceRight {left right back : List ℕ} {n : ℕ}
    (h : WellFormed lst mem (left ++ right)) (hfree : Freeable lst mem (left ++ right) toFree)
    (hn : right ++ [lst] = n :: back) :
    ∃ right', FreeList lst (coalesceRight (insertFree mem toFree n) toFree n)
        (left ++ toFree :: right') ∧
      recorded (coalesceRight (insertFree mem toFree n) toFree n) left = recorded mem left ∧
      recorded (coalesceRight (insertFree mem toFree n) toFree n) (toFree :: right') =
        join sizeofHeader (toFree, sizeAt mem toFree) (recorded mem right) ∧
      sizeAt (coalesceRight (insertFree mem toFree n) toFree n) lst = 0 := by
  rcases freed_insert h.ring hn hfree.notMem with ⟨⟨hring₁, _⟩, hsize₁⟩
  have hrecorded₁ (bs : List ℕ) : recorded (insertFree mem toFree n) bs = recorded mem bs :=
    recorded_congr fun a _ => congrFun hsize₁ a
  have hend : stop sizeofHeader (toFree, sizeAt (insertFree mem toFree n) toFree) ≠ lst := by
    have hspaced := hfree.headSpaced
    rw [hsize₁]
    simp only [Spaced, stop] at hspaced ⊢
    omega
  rcases coalesceRight_step hring₁ hn hend with ⟨right', hring₂, hrecorded₂, hhead₂⟩
  rw [hrecorded₁, hrecorded₁, hsize₁, recorded_append] at hrecorded₂
  rw [hsize₁, h.head] at hhead₂
  have hlength : (recorded (coalesceRight (insertFree mem toFree n) toFree n) left).length =
      (recorded mem left).length := by
    simp only [recorded, List.length_map]
  have hsplit₂ := List.append_inj hrecorded₂ hlength
  exact ⟨right', hring₂, hsplit₂.1, hsplit₂.2, hhead₂⟩

/-- The new list is the old one with the block, coalesced. -/
theorem free_coalesces (h : WellFormed lst mem blocks) (hfree : Freeable lst mem blocks toFree)
    (hfuel : blocks.length < fuel) :
    ∃ mem' blocks' inserted, free lst fuel mem (toFree + sizeofHeader) = some mem' ∧
      inserted.Perm (toFree :: blocks) ∧ Increasing sizeofHeader (recorded mem inserted) ∧
      FreeList lst mem' blocks' ∧ sizeAt mem' lst = 0 ∧
      recorded mem' blocks' = coalesce sizeofHeader (recorded mem inserted) := by
  rcases scan_spec h.ring (· < toFree) hfuel with
    ⟨left, right, n, back, rfl, hn, hscan, hskip, hstop⟩
  have hincreasing := increasing_insert h hfree hn (fun a ha => by simpa using hskip a ha)
    (fun hne => by simpa using hstop hne)
  have hresult : free lst fuel mem (toFree + sizeofHeader) =
      some (coalesceLeft (coalesceRight (insertFree mem toFree n) toFree n) toFree) := by
    simp only [free, Nat.add_sub_cancel, hscan, Option.map_some]
  rcases insert_coalesceRight h hfree hn with ⟨right', hring₂, hleft, hright', hhead₂⟩
  have hgaps := h.gaps
  rw [recorded_append] at hgaps
  have hright : Gaps sizeofHeader (recorded mem right) := (List.pairwise_append.mp hgaps).2.1
  rcases List.eq_nil_or_concat' left with rfl | ⟨front, c, rfl⟩
  · have hsame := coalesceLeft_head hring₂ hhead₂ fun heq =>
      hfree.notMem (heq ▸ List.mem_cons_self)
    refine ⟨_, toFree :: right', toFree :: right, hresult, List.Perm.refl _, hincreasing, ?_⟩
    rw [hsame]
    apply And.intro hring₂
    apply And.intro hhead₂
    rw [hright', recorded_cons, coalesce_cons, hright.coalesce_eq]
  · rw [recorded_append, recorded_append] at hleft
    have hparts := List.append_inj' hleft rfl
    have hc : (c, sizeAt (coalesceRight (insertFree mem toFree n) toFree n) c) =
        (c, sizeAt mem c) := (List.cons.inj hparts.2).1
    have hmem : c ∈ (front ++ [c]) ++ right := by simp
    have hcend : stop sizeofHeader (c, sizeAt mem c) ≠ lst := by
      have hspaced := h.headSpaced _ (mem_recorded hmem)
      simp only [Spaced, stop] at hspaced ⊢
      omega
    rw [← hc] at hcend
    rw [List.append_assoc, List.singleton_append] at hring₂
    rcases coalesceLeft_step hring₂ hcend with ⟨rest, hring₃, hrecorded₃, hhead₃⟩
    rw [hparts.1, hc, hright'] at hrecorded₃
    refine ⟨_, front ++ c :: rest, (front ++ [c]) ++ toFree :: right, hresult,
      List.perm_middle, hincreasing, hring₃, hhead₃.trans hhead₂, ?_⟩
    rw [recorded_append, recorded_cons] at hincreasing
    have hbefore := (List.pairwise_append.mp hincreasing).2.2 (c, sizeAt mem c)
      (mem_recorded (by simp))
    rw [hrecorded₃, recorded_append, recorded_append, recorded_cons]
    rw [recorded_append] at hgaps
    exact (coalesce_between (List.pairwise_append.mp hgaps).1 hright hbefore).symm

/-- `free` keeps the list well formed, and its units are those of the old list and the block. -/
theorem free_wellFormed (h : WellFormed lst mem blocks) (hfree : Freeable lst mem blocks toFree)
    (hfuel : blocks.length < fuel) :
    ∃ mem' blocks', free lst fuel mem (toFree + sizeofHeader) = some mem' ∧
      WellFormed lst mem' blocks' ∧
      ∀ x, Covers sizeofHeader (recorded mem' blocks') x ↔
        Covers sizeofHeader (recorded mem blocks) x ∨
          Covers sizeofHeader [(toFree, sizeAt mem toFree)] x := by
  rcases free_coalesces h hfree hfuel with
    ⟨mem', blocks', inserted, hresult, hperm, hincreasing, hring, hhead, hrecorded⟩
  have hgaps : Gaps sizeofHeader (recorded mem' blocks') := by
    rw [hrecorded]
    exact hincreasing.coalesce
  have hpositive : ∀ e ∈ recorded mem inserted, 0 < e.2 := by
    intro e he
    rcases List.mem_map.mp he with ⟨a, ha, rfl⟩
    rcases List.mem_cons.mp (hperm.mem_iff.mp ha) with rfl | ha
    · exact hfree.positive
    · exact h.positive a ha
  have hspaced : ∀ e ∈ recorded mem inserted, Spaced sizeofHeader e (lst, 1) := by
    intro e he
    rcases List.mem_map.mp he with ⟨a, ha, rfl⟩
    rcases List.mem_cons.mp (hperm.mem_iff.mp ha) with rfl | ha
    · exact hfree.headSpaced
    · exact h.headSpaced _ (mem_recorded ha)
  have hpositive' : ∀ e ∈ recorded mem' blocks', 0 < e.2 := by
    rw [hrecorded]
    exact forall_coalesce hpositive fun e f he _ _ => Nat.lt_add_right f.2 he
  have hspaced' : ∀ e ∈ recorded mem' blocks', Spaced sizeofHeader e (lst, 1) := by
    rw [hrecorded]
    exact forall_coalesce hspaced fun e f he hf hmeet => he.joined hf hmeet
  refine ⟨mem', blocks', hresult, ?_, ?_⟩
  · constructor
    · exact hring
    · exact hhead
    · exact fun a ha => hpositive' _ (mem_recorded ha)
    · exact (gaps_recorded.mp hgaps).1
    · exact (gaps_recorded.mp hgaps).2
    · exact hspaced'
  · intro x
    rw [hrecorded, covers_coalesce, ← covers_append]
    have hcovers : (recorded mem inserted).Perm
        (recorded mem blocks ++ [(toFree, sizeAt mem toFree)]) :=
      (recorded_perm hperm).trans (List.perm_append_singleton _ _).symm
    exact ⟨fun hx => hx.perm hcovers, fun hx => hx.perm hcovers.symm⟩

/-- A block of two units between two free blocks, all of which meet. -/
def threeMeet : Memory
  | 0 => ⟨48, 120, 0⟩
  | 48 => ⟨120, 0, 1⟩
  | 72 => ⟨0, 0, 2⟩
  | 120 => ⟨0, 48, 1⟩
  | _ => ⟨0, 0, 0⟩

theorem threeMeet_wellFormed : WellFormed 0 threeMeet [48, 120] where
  ring := ⟨by simp [Link, nextOf, prevOf, threeMeet], by decide⟩
  head := rfl
  positive := by decide
  increasing := by decide
  spaced := by simp [recorded, sizeAt, threeMeet, Spaced, stop, sizeofHeader]
  headSpaced := by simp [recorded, sizeAt, threeMeet, Spaced, stop, sizeofHeader]

theorem threeMeet_freeable : Freeable 0 threeMeet [48, 120] 72 where
  positive := by decide
  apart := by simp [recorded, sizeAt, threeMeet, Apart, stop, sizeofHeader]
  headSpaced := by simp [sizeAt, threeMeet, Spaced, stop, sizeofHeader]

theorem free_wellFormed_threeMeet :
    ∃ mem' blocks', free 0 3 threeMeet (72 + sizeofHeader) = some mem' ∧
      WellFormed 0 mem' blocks' ∧
      ∀ x, Covers sizeofHeader (recorded mem' blocks') x ↔
        Covers sizeofHeader (recorded threeMeet [48, 120]) x ∨
          Covers sizeofHeader [(72, sizeAt threeMeet 72)] x :=
  free_wellFormed threeMeet_wellFormed threeMeet_freeable (by decide)

/-- An empty list, and a block of two units that ends where its head is. -/
def besideHead : Memory
  | 52 => ⟨0, 0, 2⟩
  | 100 => ⟨100, 100, 0⟩
  | _ => ⟨0, 0, 0⟩

/-- The freed block is joined with the head of the list, which then is not in a ring. -/
theorem free_besideHead :
    WellFormed 100 besideHead [] ∧ 0 < sizeAt besideHead 52 ∧
      Apart sizeofHeader (52, sizeAt besideHead 52) (100, 1) ∧
      ¬ ∃ fuel mem' blocks', free 100 fuel besideHead (52 + sizeofHeader) = some mem' ∧
        FreeList 100 mem' blocks' := by
  have hwell : WellFormed 100 besideHead [] := by
    constructor
    · exact DoublyLinked.nil rfl rfl
    · rfl
    · exact fun a ha => absurd ha List.not_mem_nil
    · exact List.Pairwise.nil
    · exact List.Pairwise.nil
    · exact fun e he => absurd he List.not_mem_nil
  apply And.intro hwell
  apply And.intro (by decide)
  apply And.intro (Or.inl (by decide))
  rintro ⟨fuel, mem', blocks', hresult, hring⟩
  have hfirst : nextOf mem' 100 = 52 ∧ nextOf mem' 52 = 52 := by
    cases fuel with
    | zero => cases hresult
    | succ fuel =>
      cases hresult
      exact ⟨by decide, by decide⟩
  rcases hring.next_head with ⟨back, hback⟩
  rw [hfirst.1] at hback
  cases blocks' with
  | nil => cases hback
  | cons a rest =>
    rcases List.cons.inj hback with ⟨rfl, _⟩
    rcases (DoublyLinked.links_step hring.links.tail).1 with ⟨back', hback'⟩
    rw [hfirst.2] at hback'
    cases rest with
    | nil => cases hback'
    | cons b rest =>
      rcases List.cons.inj hback' with ⟨rfl, _⟩
      have hnodup := hring.nodup
      simp at hnodup

end InterviewQuestions.Malloc

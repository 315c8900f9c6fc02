import Mathlib.Order.Bounds.Basic
import InterviewQuestions.RgbStripes.Placements

/-! `min_strips` is the least number of strips among the sequences in which no strip downwards is
stopped by another strip. -/
namespace InterviewQuestions.RgbStripes

open Library.Runs

/-- The strips are placed one after another, each from a cell without a colour, and leave none. -/
def Fills (rows cols : ℕ) : Grid → List Placement → Prop
  | grid, [] => empty rows cols grid = ∅
  | grid, p :: ps =>
      p.cell ∈ empty rows cols grid ∧ Fills rows cols (p.place rows cols grid).1 ps

/-- What stops a strip downwards is the border or a cell that had a colour at first. -/
def Unstopped (rows cols : ℕ) (first : Grid) : Grid → List Placement → Prop
  | _, [] => True
  | grid, p :: ps =>
      (p.direction = .down →
        (p.cell.1 + (p.place rows cols grid).2, p.cell.2) ∉ empty rows cols first) ∧
      Unstopped rows cols first (p.place rows cols grid).1 ps

/-- `min_strips` returns the least number of strips that colour the grid, which it leaves as it
was. -/
def ReturnsLeast (rows cols : ℕ) (grid : Grid) : Prop :=
  ∃ n, minStrips rows cols grid = some (n, grid) ∧
    IsLeast {n | ∃ ps, Fills rows cols grid ps ∧ ps.length = n} n

variable {rows cols n k : ℕ} {grid initial : Grid} {s t v : Finset Cell} {c x : Cell}
  {p : Placement} {ps : List Placement}

/-! ## Labellings

Each cell is coloured by a strip of one of the two directions. A set `v` of the cells is coloured
downwards and the other cells to the right. -/

/-- No cell below one of the set is missing. -/
def Closed (v s : Finset Cell) : Prop := ∀ x ∈ v, downward x ∈ s → downward x ∈ v

/-- The number of runs, in both directions. -/
def cost (s v : Finset Cell) : ℕ := (starts downward v).card + (starts rightward (s \ v)).card

theorem Closed.sdiff (h : Closed v s) (t : Finset Cell) : Closed (v \ t) (s \ t) := by
  intro x hx hnext
  obtain ⟨hs, ht⟩ := Finset.mem_sdiff.mp hnext
  exact Finset.mem_sdiff.mpr ⟨h x (Finset.mem_sdiff.mp hx).1 hs, ht⟩

theorem First.not_above (h : First s c) (hx : x ∈ s) (k : ℕ) :
    downward x ≠ rightward^[k] c := by
  intro heq
  rw [rightward_iterate] at heq
  obtain ⟨hrow, -⟩ := Prod.ext_iff.mp heq
  simp only [downward] at hrow
  have := h.least x hx
  omega

theorem First.not_before (h : First s c) (hx : x ∈ s) : rightward x ≠ c := by
  intro heq
  obtain ⟨hrow, hcol⟩ := Prod.ext_iff.mp heq
  simp only [rightward] at hrow hcol
  have := h.least x hx
  omega

/-- A first cell that is coloured downwards starts a run, which the closed set contains. -/
theorem cost_down (hfirst : First s c) (hv : v ⊆ s) (hclosed : Closed v s) (hc : c ∈ v)
    (hrun : Run downward s c n) :
    cost (s \ strip downward c n) (v \ strip downward c n) + 1 ≤ cost s v := by
  have hinside : ∀ k < n, downward^[k] c ∈ v := by
    intro k hk
    induction k with
    | zero => exact hc
    | succ k ih =>
      have hs := hrun.inside (k + 1) hk
      rw [Function.iterate_succ_apply'] at hs ⊢
      exact hclosed _ (ih (Nat.lt_of_succ_lt hk)) hs
  have hstrip : strip downward c n ⊆ v := by
    intro x hx
    obtain ⟨k, hk, rfl⟩ := mem_strip.mp hx
    exact hinside k hk
  have hstart : c ∈ starts downward v :=
    mem_starts.mpr ⟨hc, fun x hx => hfirst.not_above (hv hx) 0⟩
  have hdown := hrun.card_starts_sdiff_strip hv hstart
  have hother : (s \ strip downward c n) \ (v \ strip downward c n) = s \ v := by
    ext x
    have := @hstrip x
    simp only [Finset.mem_sdiff]
    tauto
  rw [cost, cost, hother]
  omega

/-- A first cell that is coloured to the right starts a run there. The strip also covers cells
that are coloured downwards, but these are in the first row and start runs. -/
theorem cost_right (hfirst : First s c) (hv : v ⊆ s) (hc : c ∉ v) (hrun : Run rightward s c n) :
    cost (s \ strip rightward c n) (v \ strip rightward c n) + 1 ≤ cost s v := by
  have hstart : c ∈ starts rightward (s \ v) :=
    mem_starts.mpr ⟨Finset.mem_sdiff.mpr ⟨hfirst.mem, hc⟩,
      fun x hx => hfirst.not_before (Finset.mem_sdiff.mp hx).1⟩
  have hright := hrun.card_starts_sdiff_strip Finset.sdiff_subset hstart
  have hdown : (starts downward (v \ strip rightward c n)).card ≤ (starts downward v).card := by
    refine card_starts_sdiff fun x hx hstrip => mem_starts.mpr ⟨hx, fun y hy => ?_⟩
    obtain ⟨k, -, rfl⟩ := mem_strip.mp hstrip
    exact hfirst.not_above (hv hy) k
  have hother : (s \ strip rightward c n) \ (v \ strip rightward c n) =
      (s \ v) \ strip rightward c n := by
    ext x
    simp only [Finset.mem_sdiff]
    tauto
  rw [cost, cost, hother]
  omega

theorem computes_le_cost (h : Computes rows cols grid n) (hv : v ⊆ empty rows cols grid)
    (hclosed : Closed v (empty rows cols grid)) : n ≤ cost (empty rows cols grid) v := by
  induction h generalizing v with
  | coloured => exact Nat.zero_le _
  | @placed grid c res resRed hfirst _ _ ihBlue ihRed =>
    rw [Placement.empty_place] at ihBlue ihRed
    by_cases hc : c ∈ v
    · have hrun := Placement.place_run (p := ⟨c, .down⟩) hfirst.mem
      have hle := ihBlue (Finset.sdiff_subset_sdiff hv le_rfl) (hclosed.sdiff _)
      have hcost := cost_down hfirst hv hclosed hc hrun
      exact (min_le_left _ _).trans ((Nat.succ_le_succ hle).trans hcost)
    · have hrun := Placement.place_run (p := ⟨c, .right⟩) hfirst.mem
      have hle := ihRed (Finset.sdiff_subset_sdiff hv le_rfl) (hclosed.sdiff _)
      have hcost := cost_right hfirst hv hc hrun
      exact (min_le_right _ _).trans ((Nat.succ_le_succ hle).trans hcost)

/-! ## Sequences of strips -/

theorem cost_union_strip (s v : Finset Cell) (c : Cell) (n : ℕ) :
    cost s (v ∪ strip downward c n) ≤ cost (s \ strip downward c n) v + 1 := by
  have hother : s \ (v ∪ strip downward c n) = (s \ strip downward c n) \ v := by
    ext x
    simp only [Finset.mem_sdiff, Finset.mem_union]
    tauto
  have hdown := card_starts_union_strip downward v c n
  rw [cost, cost, hother]
  omega

theorem cost_sdiff_strip (hv : v ⊆ s \ strip rightward c n) (hstrip : strip rightward c n ⊆ s) :
    cost s v ≤ cost (s \ strip rightward c n) v + 1 := by
  have hother : s \ v = ((s \ strip rightward c n) \ v) ∪ strip rightward c n := by
    ext x
    have hnot := @hv x
    have hin := @hstrip x
    simp only [Finset.mem_sdiff, Finset.mem_union] at hnot ⊢
    tauto
  have hright := card_starts_union_strip rightward ((s \ strip rightward c n) \ v) c n
  rw [cost, cost, hother]
  omega

/-- A strip after which the set ends keeps a set closed. -/
theorem Closed.union_strip (h : Closed v s) (hstop : downward^[n] c ∉ s) :
    Closed (v ∪ strip downward c n) s := by
  intro x hx hnext
  rcases Finset.mem_union.mp hx with hx | hx
  · exact Finset.mem_union_left _ (h x hx hnext)
  · obtain ⟨k, hk, rfl⟩ := mem_strip.mp hx
    rw [← Function.iterate_succ_apply' downward] at hnext ⊢
    refine Finset.mem_union_right _ (mem_strip.mpr ⟨k + 1, lt_of_le_of_ne hk ?_, rfl⟩)
    intro (hlast : k.succ = n)
    rw [hlast] at hnext
    exact hstop hnext

/-- A sequence in which no strip downwards is stopped colours the cells of a closed set downwards,
and each of its strips starts at most one run. -/
theorem Fills.exists_closed (h : Fills rows cols grid ps)
    (hps : Unstopped rows cols initial grid ps) :
    ∃ v ⊆ empty rows cols grid, Closed v (empty rows cols initial) ∧
      cost (empty rows cols grid) v ≤ ps.length := by
  induction ps generalizing grid with
  | nil =>
    have hempty : empty rows cols grid = ∅ := h
    exact ⟨∅, Finset.empty_subset _, by simp [Closed], by simp [cost, starts, hempty]⟩
  | cons p ps ih =>
    obtain ⟨hcell, hrest⟩ := h
    obtain ⟨hstop, hps⟩ := hps
    obtain ⟨v, hv, hclosed, hcost⟩ := ih hrest hps
    have hstrip := (Placement.place_run hcell).strip_subset
    rw [Placement.empty_place] at hv hcost
    have hvs : v ⊆ empty rows cols grid := hv.trans Finset.sdiff_subset
    obtain ⟨c, d⟩ := p
    cases d with
    | down =>
      have hend := hstop rfl
      rw [← downward_iterate] at hend
      refine ⟨_, Finset.union_subset hvs hstrip, hclosed.union_strip hend, ?_⟩
      exact (cost_union_strip _ v c _).trans (Nat.succ_le_succ hcost)
    | right =>
      refine ⟨v, hvs, hclosed, ?_⟩
      exact (cost_sdiff_strip hv hstrip).trans (Nat.succ_le_succ hcost)

/-! ## The sequence that the calls follow -/

/-- Where the cells are closed among those that were empty at first, they are so after a strip from
the first of them. -/
theorem First.closed_sdiff {t : Finset Cell} (hfirst : First s c) (hclosed : Closed s t) :
    Closed (s \ strip downward c n) t ∧ Closed (s \ strip rightward c n) t := by
  constructor
  · intro x hx hnext
    obtain ⟨hs, hstrip⟩ := Finset.mem_sdiff.mp hx
    refine Finset.mem_sdiff.mpr ⟨hclosed x hs hnext, fun hmem => ?_⟩
    rcases eq_or_next_mem hmem with heq | ⟨y, hy, heq⟩
    · exact hfirst.not_above hs 0 heq
    · have hxy : y = x := by
        obtain ⟨hrow, hcol⟩ := Prod.ext_iff.mp heq
        exact Prod.ext (Nat.succ_injective hrow) hcol
      rw [hxy] at hy
      exact hstrip hy
  · intro x hx hnext
    have hs := (Finset.mem_sdiff.mp hx).1
    refine Finset.mem_sdiff.mpr ⟨hclosed x hs hnext, fun hmem => ?_⟩
    obtain ⟨k, -, heq⟩ := mem_strip.mp hmem
    exact hfirst.not_above hs k heq.symm

/-- A strip downwards that is a run of closed cells ends where the larger set ends. -/
theorem Closed.run_stops {t : Finset Cell} (hclosed : Closed s t) (hc : c ∈ s)
    (hrun : Run downward s c n) : downward^[n] c ∉ t := by
  obtain ⟨n, rfl⟩ := Nat.exists_eq_succ_of_ne_zero (hrun.pos hc).ne'
  intro ht
  have hlast := hrun.inside n (Nat.lt_succ_self n)
  rw [Function.iterate_succ_apply'] at ht
  refine hrun.stops ?_
  rw [Function.iterate_succ_apply']
  exact hclosed _ hlast ht

theorem Computes.exists_fills (h : Computes rows cols grid n)
    (hclosed : Closed (empty rows cols grid) (empty rows cols initial)) :
    ∃ ps, Fills rows cols grid ps ∧ Unstopped rows cols initial grid ps ∧ ps.length = n := by
  induction h with
  | coloured hempty => exact ⟨[], hempty, trivial, rfl⟩
  | @placed grid c res resRed hfirst _ _ ihBlue ihRed =>
    rw [Placement.empty_place] at ihBlue ihRed
    rcases Nat.le_total res resRed with hle | hle
    · obtain ⟨ps, hfills, hps, hlen⟩ := ihBlue (hfirst.closed_sdiff hclosed).1
      refine ⟨⟨c, .down⟩ :: ps, ⟨hfirst.mem, hfills⟩, ⟨fun _ => ?_, hps⟩, ?_⟩
      · rw [← downward_iterate]
        exact hclosed.run_stops hfirst.mem (Placement.place_run (p := ⟨c, .down⟩) hfirst.mem)
      · rw [List.length_cons, hlen, min_eq_left (Nat.succ_le_succ hle)]
    · obtain ⟨ps, hfills, hps, hlen⟩ := ihRed (hfirst.closed_sdiff hclosed).2
      refine ⟨⟨c, .right⟩ :: ps, ⟨hfirst.mem, hfills⟩, ⟨by simp, hps⟩, ?_⟩
      rw [List.length_cons, hlen, min_eq_right (Nat.succ_le_succ hle)]

/-! ## The least number -/

/-- The result is the least number of strips among the sequences in which no strip downwards is
stopped by another. -/
theorem Computes.isLeast (h : Computes rows cols grid n) :
    IsLeast {n | ∃ ps, (Fills rows cols grid ps ∧ Unstopped rows cols grid grid ps) ∧
      ps.length = n} n := by
  constructor
  · obtain ⟨ps, hfills, hps, hlen⟩ := h.exists_fills fun _ _ hnext => hnext
    exact ⟨ps, ⟨hfills, hps⟩, hlen⟩
  · rintro _ ⟨ps, ⟨hfills, hps⟩, rfl⟩
    obtain ⟨v, hv, hclosed, hcost⟩ := hfills.exists_closed hps
    exact (computes_le_cost h hv hclosed).trans hcost

/-- The middle column and the last row have no colour. Two strips fill them, but only when the one
downwards is stopped by the other. -/
def cross : Grid := fun cell => if cell.1 < 2 ∧ cell.2 ≠ 1 then 71 else 46

end InterviewQuestions.RgbStripes

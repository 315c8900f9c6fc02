import InterviewQuestions.Library.Runs
import Mathlib.Data.Finset.Prod
import Mathlib.Data.Nat.Notation
import Mathlib.Logic.Function.Basic

/-! `recursion_dp/rgb_stripes/solution.c`. The two kinds of strips differ in their direction and
colour. The counts are at most the number of cells. -/
namespace InterviewQuestions.RgbStripes

/-- A row and a column. -/
abbrev Cell := ℕ × ℕ

/-- The characters of the cells. Those beyond the borders are never read. -/
abbrev Grid := Cell → UInt8

def downward (cell : Cell) : Cell := (cell.1 + 1, cell.2)

def rightward (cell : Cell) : Cell := (cell.1, cell.2 + 1)

/-- The loop that places a strip, with the grid and the number of cells that it has coloured. The
border is `room` cells ahead. -/
def placeStrip (colour : UInt8) (next : Cell → Cell) : ℕ → Grid → Cell → Grid × ℕ
  | 0, grid, _ => (grid, 0)
  | room + 1, grid, cell =>
      if grid cell = 46 then
        let placed := placeStrip colour next room (Function.update grid cell colour) (next cell)
        (placed.1, placed.2 + 1)
      else (grid, 0)

/-- The loop that takes it away again. -/
def deleteStrip (next : Cell → Cell) : ℕ → Grid → Cell → Grid
  | 0, grid, _ => grid
  | filled + 1, grid, cell =>
      deleteStrip next filled (Function.update grid cell 46) (next cell)

def placeBlueStrip (rows : ℕ) (grid : Grid) (row col : ℕ) : Grid × ℕ :=
  placeStrip 66 downward (rows - row) grid (row, col)

def deleteBlueStrip (grid : Grid) (row col filled : ℕ) : Grid :=
  deleteStrip downward filled grid (row, col)

def placeRedStrip (cols : ℕ) (grid : Grid) (row col : ℕ) : Grid × ℕ :=
  placeStrip 82 rightward (cols - col) grid (row, col)

def deleteRedStrip (grid : Grid) (row col filled : ℕ) : Grid :=
  deleteStrip rightward filled grid (row, col)

/-- All cells in the order of the two loops. -/
def cells (rows cols : ℕ) : List Cell :=
  (List.range rows).flatMap fun i => (List.range cols).map fun j => (i, j)

/-- The result with the grid as the call leaves it. The recursion is never deeper than the grid has
cells. -/
def minStripsAux (rows cols : ℕ) : ℕ → Grid → Option (ℕ × Grid)
  | 0, _ => none
  | fuel + 1, grid =>
      match (cells rows cols).find? fun cell => grid cell = 46 with
      | none => some (0, grid)
      | some (i, j) => do
          let (grid, filled) := placeBlueStrip rows grid i j
          let (res, grid) ← minStripsAux rows cols fuel grid
          let res := res + 1
          let grid := deleteBlueStrip grid i j filled
          let (grid, filled) := placeRedStrip cols grid i j
          let (resRed, grid) ← minStripsAux rows cols fuel grid
          let res := min res (resRed + 1)
          return (res, deleteRedStrip grid i j filled)

def minStrips (rows cols : ℕ) (grid : Grid) : Option (ℕ × Grid) :=
  minStripsAux rows cols (rows * cols + 1) grid

/-! What a call of `min_strips` computes, in terms of the cells that have no colour. -/

open Library.Runs

inductive Direction where
  | down
  | right
deriving DecidableEq, Repr

def Direction.next : Direction → Cell → Cell
  | down => downward
  | right => rightward

structure Placement where
  cell : Cell
  direction : Direction
deriving DecidableEq, Repr

/-- The grid with the strip, and the number of cells that the strip has coloured. -/
def Placement.place (rows cols : ℕ) (p : Placement) (grid : Grid) : Grid × ℕ :=
  match p.direction with
  | .down => placeBlueStrip rows grid p.cell.1 p.cell.2
  | .right => placeRedStrip cols grid p.cell.1 p.cell.2

/-- The cells without a colour. -/
def empty (rows cols : ℕ) (grid : Grid) : Finset Cell :=
  (Finset.range rows ×ˢ Finset.range cols).filter fun cell => grid cell = 46

variable {rows cols fuel n : ℕ} {grid : Grid} {colour : UInt8} {next : Cell → Cell}
  {cell x : Cell} {p : Placement}

theorem mem_empty : x ∈ empty rows cols grid ↔ (x.1 < rows ∧ x.2 < cols) ∧ grid x = 46 := by
  simp [empty]

/-! ## The loops of the strips -/

/-- What the loop of a strip has done to the grid. -/
structure Placed (colour : UInt8) (next : Cell → Cell) (room : ℕ) (grid : Grid) (cell : Cell)
    (placed : Grid × ℕ) : Prop where
  le_room : placed.2 ≤ room
  inside : ∀ k < placed.2, grid (next^[k] cell) = 46
  stops : placed.2 = room ∨ grid (next^[placed.2] cell) ≠ 46
  coloured : ∀ x, placed.1 x = if x ∈ strip next cell placed.2 then colour else grid x

theorem placeStrip_placed (hfresh : ∀ k cell, next^[k + 1] cell ≠ cell)
    (room : ℕ) (grid : Grid) (cell : Cell) :
    Placed colour next room grid cell (placeStrip colour next room grid cell) := by
  induction room generalizing grid cell with
  | zero => exact ⟨le_rfl, by simp [placeStrip], .inl rfl, by simp [placeStrip, strip]⟩
  | succ room ih =>
    rw [placeStrip]
    split
    case isTrue hcell =>
      have h := ih (Function.update grid cell colour) (next cell)
      refine ⟨Nat.succ_le_succ h.le_room, fun k hk => ?_, ?_, fun x => ?_⟩
      · cases k with
        | zero => exact hcell
        | succ k =>
          have hk' := h.inside k (Nat.lt_of_succ_lt_succ hk)
          rwa [← Function.iterate_succ_apply, Function.update_of_ne (hfresh k cell)] at hk'
      · refine h.stops.imp (congrArg Nat.succ) fun hstop => ?_
        rwa [← Function.iterate_succ_apply, Function.update_of_ne (hfresh _ cell)] at hstop
      · simp only [h.coloured, strip_succ, Finset.mem_insert]
        by_cases hx : x = cell
        · simp [hx]
        · simp [hx]
    case isFalse hcell => exact ⟨Nat.zero_le _, by simp, .inr hcell, by simp [strip]⟩

theorem deleteStrip_update (next : Cell → Cell) (n : ℕ) (grid : Grid) (cell x : Cell) :
    deleteStrip next n (Function.update grid x 46) cell =
      Function.update (deleteStrip next n grid cell) x 46 := by
  induction n generalizing grid cell with
  | zero => rfl
  | succ n ih =>
    rw [deleteStrip, deleteStrip, ← ih]
    by_cases hx : x = cell
    · rw [hx]
    · rw [Function.update_comm hx]

/-- The strip is taken away as it was placed. -/
theorem deleteStrip_placeStrip (colour : UInt8) (next : Cell → Cell) (room : ℕ) (grid : Grid)
    (cell : Cell) :
    deleteStrip next (placeStrip colour next room grid cell).2
      (placeStrip colour next room grid cell).1 cell = grid := by
  induction room generalizing grid cell with
  | zero => rfl
  | succ room ih =>
    rw [placeStrip]
    split
    case isTrue hcell =>
      rw [deleteStrip, deleteStrip_update, ih, Function.update_idem, ← hcell,
        Function.update_eq_self]
    case isFalse => rfl

/-! ## The cells of a strip -/

theorem downward_iterate (k : ℕ) (cell : Cell) : downward^[k] cell = (cell.1 + k, cell.2) := by
  induction k with
  | zero => rfl
  | succ k ih =>
    rw [Function.iterate_succ_apply', ih]
    rfl

theorem rightward_iterate (k : ℕ) (cell : Cell) : rightward^[k] cell = (cell.1, cell.2 + k) := by
  induction k with
  | zero => rfl
  | succ k ih =>
    rw [Function.iterate_succ_apply', ih]
    rfl

/-- How far the border is. -/
def Direction.room (rows cols : ℕ) : Direction → Cell → ℕ
  | down, cell => rows - cell.1
  | right, cell => cols - cell.2

theorem iterate_next_ne (d : Direction) (k : ℕ) (cell : Cell) : d.next^[k + 1] cell ≠ cell := by
  intro h
  cases d with
  | down =>
    rw [Direction.next, downward_iterate] at h
    have := congrArg Prod.fst h
    simp only at this
    omega
  | right =>
    rw [Direction.next, rightward_iterate] at h
    have := congrArg Prod.snd h
    simp only at this
    omega

theorem iterate_next_within (d : Direction) (hcell : cell.1 < rows ∧ cell.2 < cols) (k : ℕ) :
    (d.next^[k] cell).1 < rows ∧ (d.next^[k] cell).2 < cols ↔ k < d.room rows cols cell := by
  cases d with
  | down =>
    rw [Direction.next, downward_iterate, Direction.room]
    simp only
    omega
  | right =>
    rw [Direction.next, rightward_iterate, Direction.room]
    simp only
    omega

theorem Placement.place_placed (rows cols : ℕ) (p : Placement) (grid : Grid) :
    ∃ colour ≠ 46, Placed colour p.direction.next (p.direction.room rows cols p.cell) grid p.cell
      (p.place rows cols grid) := by
  obtain ⟨cell, d⟩ := p
  cases d with
  | down => exact ⟨66, by decide, placeStrip_placed (iterate_next_ne .down) _ grid cell⟩
  | right => exact ⟨82, by decide, placeStrip_placed (iterate_next_ne .right) _ grid cell⟩

/-- A strip is a run of the cells without a colour. -/
theorem Placement.place_run (hcell : p.cell ∈ empty rows cols grid) :
    Run p.direction.next (empty rows cols grid) p.cell (p.place rows cols grid).2 := by
  obtain ⟨colour, -, h⟩ := p.place_placed rows cols grid
  have hwithin := iterate_next_within p.direction (mem_empty.mp hcell).1
  refine ⟨fun k hk => ?_, fun hmem => ?_⟩
  · exact mem_empty.mpr ⟨(hwithin k).mpr (hk.trans_le h.le_room), h.inside k hk⟩
  · obtain ⟨hin, hempty⟩ := mem_empty.mp hmem
    rcases h.stops with hroom | hstop
    · exact absurd ((hwithin _).mp hin) (Nat.not_lt.mpr hroom.ge)
    · exact hstop hempty

theorem Placement.empty_place (rows cols : ℕ) (p : Placement) (grid : Grid) :
    empty rows cols (p.place rows cols grid).1 =
      empty rows cols grid \ strip p.direction.next p.cell (p.place rows cols grid).2 := by
  obtain ⟨colour, hcolour, h⟩ := p.place_placed rows cols grid
  ext x
  rw [Finset.mem_sdiff, mem_empty, mem_empty, h.coloured]
  by_cases hx : x ∈ strip p.direction.next p.cell (p.place rows cols grid).2
  · simp [hx, hcolour]
  · simp [hx]

theorem Placement.card_empty_place (hcell : p.cell ∈ empty rows cols grid) :
    (empty rows cols (p.place rows cols grid).1).card < (empty rows cols grid).card := by
  have hstrip : p.cell ∈ strip p.direction.next p.cell (p.place rows cols grid).2 :=
    mem_strip_self ((place_run hcell).pos hcell)
  rw [p.empty_place]
  refine Finset.card_lt_card (Finset.ssubset_iff_subset_ne.mpr ⟨Finset.sdiff_subset, fun h => ?_⟩)
  rw [← h] at hcell
  exact (Finset.mem_sdiff.mp hcell).2 hstrip

/-! ## The calls -/

/-- The first of the cells in the order of the loops. -/
structure First (s : Finset Cell) (cell : Cell) : Prop where
  mem : cell ∈ s
  least : ∀ x ∈ s, cell.1 < x.1 ∨ cell.1 = x.1 ∧ cell.2 ≤ x.2

theorem mem_cells : x ∈ cells rows cols ↔ x.1 < rows ∧ x.2 < cols := by
  obtain ⟨i, j⟩ := x
  simp [cells]

theorem cells_pairwise (rows cols : ℕ) :
    (cells rows cols).Pairwise fun x y => x.1 < y.1 ∨ x.1 = y.1 ∧ x.2 < y.2 := by
  refine List.pairwise_flatMap.mpr ⟨fun i _ => ?_, ?_⟩
  · refine List.pairwise_map.mpr (List.pairwise_lt_range.imp fun hlt => ?_)
    exact .inr ⟨rfl, hlt⟩
  · refine List.pairwise_lt_range.imp fun hlt x hx y hy => ?_
    obtain ⟨j, -, rfl⟩ := List.mem_map.mp hx
    obtain ⟨j', -, rfl⟩ := List.mem_map.mp hy
    exact .inl hlt

theorem empty_of_find?_cells
    (h : (cells rows cols).find? (fun cell => grid cell = 46) = none) :
    empty rows cols grid = ∅ := by
  refine Finset.eq_empty_of_forall_notMem fun x hx => ?_
  obtain ⟨hin, hempty⟩ := mem_empty.mp hx
  have hx := List.find?_eq_none.mp h x (mem_cells.mpr hin)
  simp [hempty] at hx

theorem first_of_find?_cells
    (h : (cells rows cols).find? (fun cell => grid cell = 46) = some cell) :
    First (empty rows cols grid) cell := by
  obtain ⟨hempty, before, after, hcells, hbefore⟩ := List.find?_eq_some_iff_append.mp h
  have hsorted := cells_pairwise rows cols
  rw [hcells] at hsorted
  have hafter := (List.pairwise_cons.mp (List.pairwise_append.mp hsorted).2.1).1
  refine ⟨mem_empty.mpr ⟨mem_cells.mp (List.mem_of_find?_eq_some h), by simpa using hempty⟩, ?_⟩
  intro x hx
  obtain ⟨hin, hx⟩ := mem_empty.mp hx
  have hmem := mem_cells.mpr hin
  rw [hcells, List.mem_append, List.mem_cons] at hmem
  rcases hmem with hb | rfl | ha
  · have hno := hbefore x hb
    simp [hx] at hno
  · exact .inr ⟨rfl, le_rfl⟩
  · exact (hafter x ha).imp_right fun h => ⟨h.1, h.2.le⟩

/-- The calls that a call makes, with their results. -/
inductive Computes (rows cols : ℕ) : Grid → ℕ → Prop where
  | coloured {grid : Grid} (hempty : empty rows cols grid = ∅) : Computes rows cols grid 0
  | placed {grid : Grid} {cell : Cell} {res resRed : ℕ} (hfirst : First (empty rows cols grid) cell)
      (hblue : Computes rows cols (Placement.place rows cols ⟨cell, .down⟩ grid).1 res)
      (hred : Computes rows cols (Placement.place rows cols ⟨cell, .right⟩ grid).1 resRed) :
      Computes rows cols grid (min (res + 1) (resRed + 1))

/-- A call returns with the grid as it was, by induction on its depth: with every strip there are
fewer cells to colour. -/
theorem minStripsAux_computes (hfuel : (empty rows cols grid).card < fuel) :
    ∃ n, minStripsAux rows cols fuel grid = some (n, grid) ∧ Computes rows cols grid n := by
  induction fuel generalizing grid with
  | zero => cases hfuel
  | succ fuel ih =>
    rw [minStripsAux]
    split
    case h_1 hfind => exact ⟨0, rfl, .coloured (empty_of_find?_cells hfind)⟩
    case h_2 i j hfind =>
      have hfirst := first_of_find?_cells hfind
      have hcard (d : Direction) :
          (empty rows cols (Placement.place rows cols ⟨(i, j), d⟩ grid).1).card < fuel :=
        Nat.lt_of_lt_of_le (Placement.card_empty_place hfirst.mem) (Nat.le_of_lt_succ hfuel)
      obtain ⟨res, hres, hblue⟩ := ih (hcard .down)
      obtain ⟨resRed, hresRed, hred⟩ := ih (hcard .right)
      have hdelete : deleteBlueStrip (placeBlueStrip rows grid i j).1 i j
          (placeBlueStrip rows grid i j).2 = grid := deleteStrip_placeStrip _ _ _ grid (i, j)
      have hdeleteRed : deleteRedStrip (placeRedStrip cols grid i j).1 i j
          (placeRedStrip cols grid i j).2 = grid := deleteStrip_placeStrip _ _ _ grid (i, j)
      refine ⟨_, ?_, .placed hfirst hblue hred⟩
      simp only [Placement.place] at hres hresRed
      simp only [hres, Option.bind_eq_bind, Option.bind_some, hdelete, hresRed, hdeleteRed]
      rfl

theorem card_empty_le (rows cols : ℕ) (grid : Grid) :
    (empty rows cols grid).card ≤ rows * cols := by
  refine (Finset.card_filter_le _ _).trans ?_
  rw [Finset.card_product, Finset.card_range, Finset.card_range]

theorem minStrips_computes (rows cols : ℕ) (grid : Grid) :
    ∃ n, minStrips rows cols grid = some (n, grid) ∧ Computes rows cols grid n :=
  minStripsAux_computes (Nat.lt_succ_of_le (card_empty_le rows cols grid))

end InterviewQuestions.RgbStripes

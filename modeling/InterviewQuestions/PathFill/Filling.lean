import InterviewQuestions.PathFill.Search

/-! The search finds disjoint paths that fill the grid exactly when there are some, on grids whose
sizes are `int`s and whose cells an `unsigned` can count. -/
namespace InterviewQuestions.PathFill

open Library Backtracking

variable {rows cols : ℕ} {pairs : List (Point × Point)} {c : Point} {visited : Point → Bool}
  {paths : List (List Point)}

/-- Pairwise disjoint simple paths, one for each pair, that cover the grid. -/
structure Fills (rows cols : ℕ) (pairs : List (Point × Point)) (paths : List (List Point)) :
    Prop where
  ends : List.Forall₂ (fun pair path => IsPath pair.1 pair.2 path) pairs paths
  simple : ∀ path ∈ paths, path.Nodup
  disjoint : paths.Pairwise List.Disjoint
  covers : ∀ c, (∃ path ∈ paths, c ∈ path) ↔ 0 ≤ c.1 ∧ c.1 < rows ∧ 0 ≤ c.2 ∧ c.2 < cols

/-- The sizes are `int`s, and the number of cells is an `unsigned`. -/
def WithinLimits (rows cols : ℕ) : Prop := rows < 2 ^ 31 ∧ cols < 2 ^ 31 ∧ rows * cols < 2 ^ 32

instance (rows cols : ℕ) : Decidable (WithinLimits rows cols) :=
  inferInstanceAs (Decidable (_ ∧ _ ∧ _))

/-! ## Counting -/

theorem length_cells (rows cols : ℕ) : (cells rows cols).length = rows * cols := by
  simp [cells, List.length_flatMap]

theorem toNat_foldl (visited : Point → Bool) (l : List Point) (start : UInt32) :
    (l.foldl (fun used c => if visited c then used + 1 else used) start).toNat =
      (start.toNat + l.countP visited) % 2 ^ 32 := by
  induction l generalizing start with
  | nil => exact (Nat.mod_eq_of_lt start.toNat_lt).symm
  | cons c l ih =>
    rw [List.foldl_cons, ih]
    cases hc : visited c with
    | false =>
      rw [if_neg (by decide), List.countP_cons_of_neg (by simp [hc])]
    | true =>
      have hadd : (start + 1).toNat = (start.toNat + 1) % 2 ^ 32 := UInt32.toNat_add start 1
      rw [if_pos rfl, hadd, List.countP_cons_of_pos hc]
      omega

theorem toNat_used (visited : Point → Bool) :
    (used rows cols visited).toNat = (cells rows cols).countP visited % 2 ^ 32 := by
  rw [used, toNat_foldl]
  exact congrArg (· % 2 ^ 32) (Nat.zero_add _)

theorem used_iff (hcells : rows * cols < 2 ^ 32) :
    (used rows cols visited).toNat = rows * cols ↔ ∀ c ∈ cells rows cols, visited c = true := by
  have hle := List.countP_le_length (p := visited) (l := cells rows cols)
  rw [length_cells] at hle
  rw [toNat_used, Nat.mod_eq_of_lt (by omega), ← length_cells, List.countP_eq_length]

theorem used_ne_of_not_visited (hc : c ∈ cells rows cols) (hnot : visited c = false) :
    (used rows cols visited).toNat ≠ rows * cols := by
  intro hused
  have hlt : (cells rows cols).countP visited < (cells rows cols).length := by
    refine lt_of_le_of_ne List.countP_le_length fun heq => ?_
    rw [List.countP_eq_length.mp heq c hc] at hnot
    cases hnot
  have hmod := Nat.mod_le ((cells rows cols).countP visited) (2 ^ 32)
  rw [toNat_used] at hused
  rw [length_cells] at hlt
  omega

/-! ## Routes from the empty grid -/

theorem toInt_of_lt {n : ℕ} (h : n < 2 ^ 31) : toInt n = n := by
  have hcases := Arithmetic.bmod_cases n
  unfold toInt
  omega

theorem open_iff (hlimits : WithinLimits rows cols) :
    Open rows cols (fun _ => false) c ↔ c ∈ cells rows cols := by
  obtain ⟨hrows, hcols, _⟩ := hlimits
  rw [mem_cells, Open, toInt_of_lt hrows, toInt_of_lt hcols]
  simp only [Bool.false_eq_true, or_false]
  omega

theorem routes_iff_fills (hlimits : WithinLimits rows cols) :
    Routes rows cols (fun _ => false) pairs paths ↔ Fills rows cols pairs paths := by
  constructor
  · intro h
    obtain ⟨hsimple, hdisjoint⟩ := List.nodup_flatten.mp h.covers.nodup
    refine ⟨h.ends, hsimple, hdisjoint, fun c => ?_⟩
    rw [← mem_cells, ← List.mem_flatten]
    constructor
    · exact fun hc => (open_iff hlimits).mp (h.covers.free c hc)
    · intro hc
      have hvisited := (used_iff hlimits.2.2).mp h.covers.used c hc
      simpa using hvisited
  · intro h
    have hmem : ∀ c, c ∈ paths.flatten ↔ c ∈ cells rows cols := by
      intro c
      rw [List.mem_flatten, h.covers, mem_cells]
    refine ⟨h.ends, List.nodup_flatten.mpr ⟨h.simple, h.disjoint⟩, fun c hc => ?_, ?_⟩
    · exact (open_iff hlimits).mpr ((hmem c).mp hc)
    · rw [used_iff hlimits.2.2]
      intro c hc
      simp [(hmem c).mpr hc]

/-- Beyond the limits the count of visited cells is never the number of cells. -/
theorem not_routes (hrows : 0 < rows) (hcols : 0 < cols) (hlimits : ¬ WithinLimits rows cols) :
    ¬ Routes rows cols (fun _ => false) pairs paths := by
  intro h
  have hblocked : ∀ c ∈ cells rows cols, toInt rows ≤ c.1 ∨ toInt cols ≤ c.2 → False := by
    intro c hc hout
    refine used_ne_of_not_visited hc ?_ h.covers.used
    rw [Bool.false_or, decide_eq_false_iff_not]
    intro hmem
    exact h.covers.free c hmem (hout.elim (fun h => Or.inr (Or.inl h))
      fun h => Or.inr (Or.inr (Or.inr (Or.inl h))))
  have hsmall : ∀ n : ℕ, 2 ^ 31 ≤ n → toInt n ≤ (n : ℤ) - 1 := by
    intro n hn
    have hcases := Arithmetic.bmod_cases n
    unfold toInt
    omega
  by_cases hmany : rows < 2 ^ 31
  · by_cases hwide : cols < 2 ^ 31
    · have hcells : 2 ^ 32 ≤ rows * cols := by
        by_contra hlt
        exact hlimits ⟨hmany, hwide, by omega⟩
      have hlt := (used rows cols fun c => false || decide (c ∈ paths.flatten)).toNat_lt
      rw [h.covers.used] at hlt
      omega
    · refine hblocked (0, (cols : ℤ) - 1) ?_ (Or.inr (hsmall cols (by omega)))
      rw [mem_cells]
      omega
  · refine hblocked ((rows : ℤ) - 1, 0) ?_ (Or.inl (hsmall rows (by omega)))
    rw [mem_cells]
    omega

/-! ## find_paths -/

theorem findPaths_eq (rows cols : ℕ) (pairs : List (Point × Point)) :
    (∃ paths, Routes rows cols (fun _ => false) pairs paths ∧
        findPaths rows cols pairs = some (true, paths)) ∨
      (∃ res, findPaths rows cols pairs = some (false, res)) ∧
        ¬ ∃ paths, Routes rows cols (fun _ => false) pairs paths := by
  have hfree : free rows cols (fun _ => false) ≤ rows * cols := by
    rw [← length_cells]
    exact List.countP_le_length
  have hfuel : 2 * free rows cols (fun _ => false) + 2 ≤ 2 * (rows * cols) + 2 := by omega
  have hanswers := (search_answers rows cols pairs (2 * (rows * cols) + 2)).2 0 ⟨fun _ => false, []⟩
    hfuel
  rw [List.drop_zero] at hanswers
  rw [findPaths]
  rcases hanswers with ⟨s, hs, paths, hpaths, hres⟩ | ⟨s, hs, _, hnone⟩
  · refine Or.inl ⟨paths, hpaths, ?_⟩
    rw [hs, Option.map_some, if_pos rfl, hres]
    simp
  · refine Or.inr ⟨⟨s.pathsRes, ?_⟩, hnone⟩
    rw [hs, Option.map_some, if_neg Bool.false_ne_true]

/-- The answer is right, and so are the paths. -/
def Correct (rows cols : ℕ) (pairs : List (Point × Point)) : Prop :=
  ∃ found res, findPaths rows cols pairs = some (found, res) ∧
    (found = true ↔ ∃ paths, Fills rows cols pairs paths) ∧
    (found = true → Fills rows cols pairs res)

/-- Beyond the limits a filling is not found. -/
theorem find_paths_iff (rows cols : ℕ) (pairs : List (Point × Point)) (hrows : 0 < rows)
    (hcols : 0 < cols) : Correct rows cols pairs ↔
      WithinLimits rows cols ∨ ¬ ∃ paths, Fills rows cols pairs paths := by
  by_cases hlimits : WithinLimits rows cols
  · refine iff_of_true ?_ (Or.inl hlimits)
    rcases findPaths_eq rows cols pairs with ⟨paths, hpaths, hfound⟩ | ⟨⟨res, hfound⟩, hnone⟩
    · have hfills := (routes_iff_fills hlimits).mp hpaths
      exact ⟨true, paths, hfound, iff_of_true rfl ⟨paths, hfills⟩, fun _ => hfills⟩
    · refine ⟨false, res, hfound, iff_of_false (by decide) ?_, fun h => by cases h⟩
      rintro ⟨paths, hfills⟩
      exact hnone ⟨paths, (routes_iff_fills hlimits).mpr hfills⟩
  · rw [or_iff_right hlimits]
    rcases findPaths_eq rows cols pairs with ⟨paths, hpaths, _⟩ | ⟨⟨res, hfound⟩, _⟩
    · exact absurd hpaths (not_routes hrows hcols hlimits)
    · constructor
      · rintro ⟨found', res', hfound', hiff, _⟩
        rw [hfound] at hfound'
        cases hfound'
        exact fun hfills => by cases hiff.mpr hfills
      · exact fun hnone => ⟨false, res, hfound, iff_of_false (by decide) hnone, fun h => by cases h⟩

/-- Two rows of two cells and the pair of two neighbours. -/
theorem find_paths_iff_sample : Correct 2 2 [((0, 0), (0, 1))] :=
  (find_paths_iff 2 2 _ (by decide) (by decide)).mpr (Or.inl (by decide))

/-! ## Large grids -/

theorem nodup_cells (rows cols : ℕ) : (cells rows cols).Nodup := by
  rw [cells, List.nodup_flatMap]
  constructor
  · intro x _
    exact List.nodup_range.map fun y y' heq => by simpa using heq
  · refine List.nodup_range.imp ?_
    intro x x' hne c hc hc'
    obtain ⟨y, _, rfl⟩ := List.mem_map.mp hc
    obtain ⟨y', _, heq⟩ := List.mem_map.mp hc'
    simp at heq
    exact hne heq.1.symm

/-- Each cell as a pair of its own. -/
theorem fills_cells (rows cols : ℕ) :
    Fills rows cols ((cells rows cols).map fun c => (c, c)) ((cells rows cols).map ([·])) := by
  constructor
  · rw [List.forall₂_map_left_iff, List.forall₂_map_right_iff, List.forall₂_same]
    exact fun c _ => isPath_singleton.mpr ⟨rfl, rfl⟩
  · intro path hpath
    obtain ⟨c, _, rfl⟩ := List.mem_map.mp hpath
    exact List.nodup_singleton c
  · rw [List.pairwise_map]
    refine (nodup_cells rows cols).imp fun hne => ?_
    simpa using hne.symm
  · intro c
    rw [← mem_cells]
    constructor
    · rintro ⟨path, hpath, hc⟩
      obtain ⟨d, hd, rfl⟩ := List.mem_map.mp hpath
      rwa [List.mem_singleton.mp hc]
    · intro hc
      exact ⟨[c], List.mem_map_of_mem hc, List.mem_singleton_self c⟩

/-- 65536 rows of 65536 cells, each a pair of its own. -/
theorem find_paths_miscounts : ¬ ∀ (rows cols : ℕ) (pairs : List (Point × Point)), 0 < rows →
    0 < cols → (∀ pair ∈ pairs, pair.1 ∈ cells rows cols ∧ pair.2 ∈ cells rows cols) →
    Correct rows cols pairs := by
  intro h
  have hinside : ∀ n, ∀ pair ∈ (cells n n).map fun c => (c, c),
      pair.1 ∈ cells n n ∧ pair.2 ∈ cells n n := by
    intro n pair hpair
    obtain ⟨c, hc, rfl⟩ := List.mem_map.mp hpair
    exact ⟨hc, hc⟩
  have hlimits : ¬ WithinLimits 65536 65536 := by decide
  obtain ⟨found, res, hfound, hiff, _⟩ := h 65536 65536 _ (by decide) (by decide) (hinside 65536)
  rcases findPaths_eq 65536 65536 ((cells 65536 65536).map fun c => (c, c)) with
    ⟨paths, hpaths, _⟩ | ⟨⟨res', hfound'⟩, _⟩
  · exact not_routes (by decide) (by decide) hlimits hpaths
  · have htrue := hiff.mpr ⟨_, fills_cells 65536 65536⟩
    rw [hfound', htrue] at hfound
    cases hfound

end InterviewQuestions.PathFill

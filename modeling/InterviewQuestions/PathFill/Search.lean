import InterviewQuestions.Library.Arithmetic
import InterviewQuestions.Library.Backtracking
import Mathlib.Algebra.GroupWithZero.Nat
import Mathlib.Data.Int.Notation
import Mathlib.Data.List.Forall2
import Mathlib.Data.List.Nodup
import Mathlib.Logic.Function.Basic

/-! The search of `recursion_dp/path_fill/solution.cpp`. The rows of the grid have the same
length, and of a cell only `visited` matters. A recursion has fuel; there is no result when it
runs out or an index is out of range. -/
namespace InterviewQuestions.PathFill

open Library

/-- `x` and `y` of a `struct point` -/
abbrev Point := ℤ × ℤ

/-- The grid and `paths_res`. -/
structure State where
  visited : Point → Bool
  pathsRes : List (List Point)

def State.mark (s : State) (c : Point) (visited : Bool) : State :=
  { s with visited := Function.update s.visited c visited }

/-- All cells, row by row. -/
def cells (rows cols : ℕ) : List Point :=
  (List.range rows).flatMap fun x : ℕ => (List.range cols).map fun y : ℕ => ((x : ℤ), (y : ℤ))

/-- `(int) n` -/
def toInt (n : ℕ) : ℤ := (n : ℤ).bmod (2 ^ 32)

/-- The steps `(i, j)` of the two loops that pass the test. -/
def steps : List (ℤ × ℤ) := [(-1, 0), (0, -1), (0, 1), (1, 0)]

/-- `paths_res[paths_res.size()-1].push_back(p)` -/
def pushLast (pathsRes : List (List Point)) (p : Point) : Option (List (List Point)) :=
  pathsRes.getLast?.map fun path => pathsRes.dropLast ++ [path ++ [p]]

variable (rows cols : ℕ)

/-- The number of visited cells. -/
def used (visited : Point → Bool) : UInt32 :=
  (cells rows cols).foldl (fun used c => if visited c then used + 1 else used) 0

/-- A path goes through the cell. -/
def Open (visited : Point → Bool) (c : Point) : Prop :=
  ¬ (c.1 < 0 ∨ toInt rows ≤ c.1 ∨ c.2 < 0 ∨ toInt cols ≤ c.2 ∨ visited c = true)

instance (visited : Point → Bool) (c : Point) : Decidable (Open rows cols visited c) :=
  inferInstanceAs (Decidable (¬ _))

variable (points : List (Point × Point))

mutual

def findPathFor : ℕ → ℕ → Point → State → Option (Bool × State)
  | 0, _, _, _ => none
  | fuel + 1, pointI, curr, s =>
      if ¬ Open rows cols s.visited curr then some (false, s)
      else
        let s := s.mark curr true
        match points[pointI]? with
        | none => none
        | some (_, last) =>
            if curr = last then
              match findPathsAux fuel (pointI + 1) s with
              | none => none
              | some (ret, s) =>
                  let s := if ret then { s with pathsRes := s.pathsRes ++ [[last]] } else s
                  some (ret, s.mark curr false)
            else
              match Backtracking.tries
                  (fun d s => findPathFor fuel pointI (curr.1 + d.1, curr.2 + d.2) s) steps s with
              | none => none
              | some (true, s) =>
                  (pushLast s.pathsRes curr).map fun res => (true, { s with pathsRes := res })
              | some (false, s) => some (false, s.mark curr false)

def findPathsAux : ℕ → ℕ → State → Option (Bool × State)
  | 0, _, _ => none
  | fuel + 1, pointI, s =>
      match points[pointI]? with
      | none => some ((used rows cols s.visited).toNat = rows * cols, s)
      | some (first, _) => findPathFor fuel pointI first s

end

/-- The value returned and `res`, which is empty before the call, as it is in `main`. -/
def findPaths : Option (Bool × List (List Point)) :=
  (findPathsAux rows cols points (2 * (rows * cols) + 2) 0 ⟨fun _ => false, []⟩).map fun found =>
    if found.1 then (true, found.2.pathsRes.reverse.map List.reverse) else (false, found.2.pathsRes)

end InterviewQuestions.PathFill

/-! The two functions of the search decide together whether the remaining pairs can be joined, and
leave the grid as it was where they cannot. -/
namespace InterviewQuestions.PathFill

open Library Backtracking

variable {rows cols : ℕ} {points pairs : List (Point × Point)} {a b c curr last : Point}
  {visited : Point → Bool} {path path' cover : List Point} {paths : List (List Point)} {s : State}

/-! ## Paths -/

/-- A horizontal or vertical unit move. -/
def Adjacent (a b : Point) : Prop :=
  (a.1 = b.1 ∧ (b.2 = a.2 + 1 ∨ a.2 = b.2 + 1)) ∨ (a.2 = b.2 ∧ (b.1 = a.1 + 1 ∨ a.1 = b.1 + 1))

structure IsPath (first last : Point) (path : List Point) : Prop where
  head : path.head? = some first
  last : path.getLast? = some last
  moves : path.IsChain Adjacent

theorem adjacent_iff : Adjacent a b ↔ ∃ d ∈ steps, b = (a.1 + d.1, a.2 + d.2) := by
  obtain ⟨x, y⟩ := a
  obtain ⟨x', y'⟩ := b
  simp only [Adjacent, steps, List.mem_cons, List.not_mem_nil, or_false, exists_eq_or_imp,
    exists_eq_left, Prod.mk.injEq]
  omega

theorem isPath_singleton : IsPath a b [c] ↔ c = a ∧ c = b := by
  constructor
  · intro h
    exact ⟨Option.some.inj h.head, Option.some.inj h.last⟩
  · rintro ⟨rfl, rfl⟩
    exact ⟨rfl, rfl, List.isChain_singleton c⟩

theorem isPath_cons_cons : IsPath a b (c :: curr :: path) ↔
    c = a ∧ Adjacent c curr ∧ IsPath curr b (curr :: path) := by
  constructor
  · intro h
    obtain ⟨hmove, hrest⟩ := List.isChain_cons_cons.mp h.moves
    have hlast := h.last
    rw [List.getLast?_cons_cons] at hlast
    exact ⟨Option.some.inj h.head, hmove, rfl, hlast, hrest⟩
  · rintro ⟨rfl, hmove, hrest⟩
    refine ⟨rfl, ?_, List.isChain_cons_cons.mpr ⟨hmove, hrest.moves⟩⟩
    rw [List.getLast?_cons_cons]
    exact hrest.last

theorem IsPath.exists_cons (h : IsPath a b path) : ∃ rest, path = a :: rest := by
  cases path with
  | nil => cases h.head
  | cons c rest => exact ⟨rest, by rw [Option.some.inj h.head]⟩

/-- A simple path that ends where it begins is the one cell. -/
theorem IsPath.eq_singleton (h : IsPath a a path) (hnodup : path.Nodup) : path = [a] := by
  obtain ⟨rest, rfl⟩ := h.exists_cons
  cases rest with
  | nil => rfl
  | cons c rest =>
    have hlast := h.last
    rw [List.getLast?_cons_cons] at hlast
    exact absurd (List.mem_of_getLast? hlast) (List.nodup_cons.mp hnodup).1

/-- A path to another cell goes on with one of the steps. -/
theorem isPath_step (hne : curr ≠ last) (h : IsPath curr last path) :
    ∃ d ∈ steps, ∃ rest, path = curr :: rest ∧ IsPath (curr.1 + d.1, curr.2 + d.2) last rest := by
  obtain ⟨rest, rfl⟩ := h.exists_cons
  cases rest with
  | nil =>
    obtain ⟨_, heq⟩ := isPath_singleton.mp h
    exact absurd heq hne
  | cons c rest =>
    obtain ⟨_, hmove, hrest⟩ := isPath_cons_cons.mp h
    obtain ⟨d, hd, rfl⟩ := adjacent_iff.mp hmove
    exact ⟨d, hd, _, rfl, hrest⟩

theorem IsPath.cons {d : ℤ × ℤ} (hd : d ∈ steps)
    (h : IsPath (curr.1 + d.1, curr.2 + d.2) last path) : IsPath curr last (curr :: path) := by
  obtain ⟨rest, rfl⟩ := h.exists_cons
  exact isPath_cons_cons.mpr ⟨rfl, adjacent_iff.mpr ⟨d, hd, rfl⟩, h⟩

/-! ## Cells -/

theorem toInt_le (n : ℕ) : toInt n ≤ n := by
  have hcases := Arithmetic.bmod_cases n
  unfold toInt
  omega

theorem mem_cells : c ∈ cells rows cols ↔ 0 ≤ c.1 ∧ c.1 < rows ∧ 0 ≤ c.2 ∧ c.2 < cols := by
  obtain ⟨x, y⟩ := c
  simp only [cells, List.mem_flatMap, List.mem_range, List.mem_map, Prod.mk.injEq]
  constructor
  · rintro ⟨n, hn, m, hm, rfl, rfl⟩
    omega
  · rintro ⟨hx, hrows, hy, hcols⟩
    exact ⟨x.toNat, by omega, y.toNat, by omega, by omega, by omega⟩

theorem Open.mem_cells (h : Open rows cols visited c) : c ∈ cells rows cols := by
  have hrows := toInt_le rows
  have hcols := toInt_le cols
  rw [PathFill.mem_cells]
  unfold Open at h
  omega

theorem open_mark : Open rows cols (Function.update visited a true) c ↔
    Open rows cols visited c ∧ c ≠ a := by
  unfold Open
  by_cases heq : c = a
  · subst heq
    simp
  · rw [Function.update_of_ne heq, and_iff_left heq]

theorem Open.unvisited (h : Open rows cols visited c) : visited c = false := by
  unfold Open at h
  rw [← Bool.not_eq_true]
  exact fun hvisited => h (by simp [hvisited])

/-- The cells that are not visited. -/
def free (rows cols : ℕ) (visited : Point → Bool) : ℕ := (cells rows cols).countP (! visited ·)

theorem free_mark (h : Open rows cols visited c) :
    free rows cols (Function.update visited c true) < free rows cols visited := by
  have hmem := h.mem_cells
  have hunvisited := h.unvisited
  unfold free
  generalize cells rows cols = l at hmem ⊢
  have hle : ∀ l : List Point, l.countP (! Function.update visited c true ·) ≤
      l.countP (! visited ·) := by
    intro l
    apply List.countP_mono_left
    intro d _ hd
    by_cases heq : d = c
    · rw [heq, hunvisited]
      rfl
    · rwa [Function.update_of_ne heq] at hd
  obtain ⟨front, back, rfl⟩ := List.append_of_mem hmem
  rw [List.countP_append, List.countP_append, List.countP_cons_of_neg (by simp),
    List.countP_cons_of_pos (by simp [hunvisited])]
  have hfront := hle front
  have hback := hle back
  omega

/-! ## What is left to do -/

/-- The cells are free, and with them enough cells are visited. -/
structure Covers (rows cols : ℕ) (visited : Point → Bool) (cover : List Point) : Prop where
  nodup : cover.Nodup
  free : ∀ c ∈ cover, Open rows cols visited c
  used : (used rows cols fun c => visited c || decide (c ∈ cover)).toNat = rows * cols

theorem covers_nil :
    Covers rows cols visited [] ↔ (used rows cols visited).toNat = rows * cols := by
  have hsame : (fun c => visited c || decide (c ∈ ([] : List Point))) = visited := by
    funext c
    simp
  constructor
  · intro h
    rw [← hsame]
    exact h.used
  · intro h
    exact ⟨List.nodup_nil, fun c hc => absurd hc List.not_mem_nil, by rwa [hsame]⟩

theorem covers_cons : Covers rows cols visited (c :: cover) ↔
    Open rows cols visited c ∧ Covers rows cols (Function.update visited c true) cover := by
  have hsame : (fun d => Function.update visited c true d || decide (d ∈ cover)) =
      fun d => visited d || decide (d ∈ c :: cover) := by
    funext d
    by_cases heq : d = c
    · subst heq
      simp
    · simp [heq]
  constructor
  · intro h
    obtain ⟨hnot, hnodup⟩ := List.nodup_cons.mp h.nodup
    refine ⟨h.free c List.mem_cons_self, hnodup, fun d hd => open_mark.mpr ⟨?_, ?_⟩, ?_⟩
    · exact h.free d (List.mem_cons_of_mem c hd)
    · rintro rfl
      exact hnot hd
    · rw [hsame]
      exact h.used
  · rintro ⟨hopen, h⟩
    refine ⟨List.nodup_cons.mpr ⟨?_, h.nodup⟩, List.forall_mem_cons.mpr ⟨hopen, ?_⟩, ?_⟩
    · intro hmem
      exact (open_mark.mp (h.free c hmem)).2 rfl
    · intro d hd
      exact (open_mark.mp (h.free d hd)).1
    · rw [← hsame]
      exact h.used

/-- Paths for the pairs over free cells. -/
structure Routes (rows cols : ℕ) (visited : Point → Bool) (pairs : List (Point × Point))
    (paths : List (List Point)) : Prop where
  ends : List.Forall₂ (fun pair path => IsPath pair.1 pair.2 path) pairs paths
  covers : Covers rows cols visited paths.flatten

theorem routes_nil : Routes rows cols visited [] paths ↔
    paths = [] ∧ (used rows cols visited).toNat = rows * cols := by
  constructor
  · rintro ⟨hends, hcovers⟩
    cases hends
    exact ⟨rfl, covers_nil.mp hcovers⟩
  · rintro ⟨rfl, hused⟩
    exact ⟨List.Forall₂.nil, covers_nil.mpr hused⟩

theorem Routes.open_first (h : Routes rows cols visited ((curr, last) :: pairs) paths) :
    Open rows cols visited curr := by
  obtain ⟨hends, hcovers⟩ := h
  cases hends with
  | cons hpath _ =>
    obtain ⟨rest, rfl⟩ := hpath.exists_cons
    exact (covers_cons.mp hcovers).1

/-- The end of a path. -/
theorem routes_end (hopen : Open rows cols visited curr) :
    Routes rows cols visited ((curr, curr) :: pairs) paths ↔
      ∃ rest, paths = [curr] :: rest ∧
        Routes rows cols (Function.update visited curr true) pairs rest := by
  constructor
  · rintro ⟨hends, hcovers⟩
    cases hends with
    | cons hpath hrest =>
      rename_i path rest
      rw [List.flatten_cons] at hcovers
      obtain rfl := hpath.eq_singleton (List.nodup_append.mp hcovers.nodup).1
      exact ⟨rest, rfl, hrest, (covers_cons.mp hcovers).2⟩
  · rintro ⟨rest, rfl, hends, hcovers⟩
    exact ⟨List.Forall₂.cons (isPath_singleton.mpr ⟨rfl, rfl⟩) hends,
      covers_cons.mpr ⟨hopen, hcovers⟩⟩

/-- A path that goes on. -/
theorem routes_step (hopen : Open rows cols visited curr) (hne : curr ≠ last) :
    Routes rows cols visited ((curr, last) :: pairs) paths ↔
      ∃ d ∈ steps, ∃ path rest, paths = (curr :: path) :: rest ∧
        Routes rows cols (Function.update visited curr true)
          (((curr.1 + d.1, curr.2 + d.2), last) :: pairs) (path :: rest) := by
  constructor
  · rintro ⟨hends, hcovers⟩
    cases hends with
    | cons hpath hrest =>
      obtain ⟨d, hd, path, rfl, hstep⟩ := isPath_step hne hpath
      exact ⟨d, hd, path, _, rfl, List.Forall₂.cons hstep hrest, (covers_cons.mp hcovers).2⟩
  · rintro ⟨d, hd, path, rest, rfl, hends, hcovers⟩
    cases hends with
    | cons hpath hrest =>
      exact ⟨List.Forall₂.cons (hpath.cons hd) hrest, covers_cons.mpr ⟨hopen, hcovers⟩⟩

/-! ## The search -/

/-- The paths are found, or there are none and the state is as before. -/
def Answers (rows cols : ℕ) (s : State) (pairs : List (Point × Point))
    (result : Option (Bool × State)) : Prop :=
  Decides (fun s' => ∃ paths, Routes rows cols s.visited pairs paths ∧
      s'.pathsRes = s.pathsRes ++ (paths.map List.reverse).reverse)
    (fun s' => s' = s) (∃ paths, Routes rows cols s.visited pairs paths) result

theorem pushLast_append (res : List (List Point)) (path : List Point) (c : Point) :
    pushLast (res ++ [path]) c = some (res ++ [path ++ [c]]) := by
  simp [pushLast]

theorem mark_restore (hopen : Open rows cols s.visited curr) :
    (s.mark curr true).mark curr false = s := by
  unfold State.mark
  rw [Function.update_idem, ← hopen.unvisited, Function.update_eq_self]

theorem answers_end (hopen : Open rows cols s.visited curr) (result : Option (Bool × State)) :
    Answers rows cols (s.mark curr true) pairs result → Answers rows cols s ((curr, curr) :: pairs)
      (match result with
        | none => none
        | some (ret, s) =>
            let s := if ret then { s with pathsRes := s.pathsRes ++ [[curr]] } else s
            some (ret, s.mark curr false)) := by
  intro h
  rcases h with ⟨s', rfl, rest, hrest, hres⟩ | ⟨s', rfl, rfl, hnone⟩
  · refine Or.inl ⟨_, rfl, [curr] :: rest, (routes_end hopen).mpr ⟨rest, rfl, hrest⟩, ?_⟩
    simp [State.mark, hres]
  · refine Or.inr ⟨_, rfl, mark_restore hopen, ?_⟩
    rintro ⟨paths, hpaths⟩
    obtain ⟨rest, _, hrest⟩ := (routes_end hopen).mp hpaths
    exact hnone ⟨rest, hrest⟩

theorem answers_step (hopen : Open rows cols s.visited curr) (hne : curr ≠ last)
    {attempt : ℤ × ℤ → State → Option (Bool × State)}
    (h : ∀ d ∈ steps, Answers rows cols (s.mark curr true)
      (((curr.1 + d.1, curr.2 + d.2), last) :: pairs) (attempt d (s.mark curr true))) :
    Answers rows cols s ((curr, last) :: pairs)
      (match tries attempt steps (s.mark curr true) with
        | none => none
        | some (true, s) =>
            (pushLast s.pathsRes curr).map fun res => (true, { s with pathsRes := res })
        | some (false, s) => some (false, s.mark curr false)) := by
  have htries := tries_decides
    (fun s' => ∃ d ∈ steps, ∃ paths, Routes rows cols (s.mark curr true).visited
      (((curr.1 + d.1, curr.2 + d.2), last) :: pairs) paths ∧
        s'.pathsRes = (s.mark curr true).pathsRes ++ (paths.map List.reverse).reverse)
    (fun s' => s' = s.mark curr true)
    (fun d hd t ht => by
      subst ht
      exact (h d hd).imp fun s' hfound => ⟨d, hd, hfound⟩) rfl
  rcases htries with ⟨s', htrue, d, hd, paths, hpaths, hres⟩ | ⟨s', hfalse, rfl, hnone⟩
  · rw [htrue]
    obtain ⟨path, rest, rfl⟩ : ∃ path rest, paths = path :: rest := by
      cases hpaths.ends with
      | cons _ _ => exact ⟨_, _, rfl⟩
    have hlast : s'.pathsRes =
        (s.pathsRes ++ (rest.map List.reverse).reverse) ++ [path.reverse] := by
      simp [hres, State.mark]
    refine Or.inl ⟨{ s' with pathsRes :=
      (s.pathsRes ++ (rest.map List.reverse).reverse) ++ [path.reverse ++ [curr]] }, ?_,
      (curr :: path) :: rest, ?_, by simp⟩
    · change (pushLast s'.pathsRes curr).map _ = _
      rw [hlast, pushLast_append]
      rfl
    · exact (routes_step hopen hne).mpr ⟨d, hd, path, rest, rfl, hpaths⟩
  · rw [hfalse]
    refine Or.inr ⟨_, rfl, mark_restore hopen, ?_⟩
    rintro ⟨paths, hpaths⟩
    obtain ⟨d, hd, path, rest, _, hstep⟩ := (routes_step hopen hne).mp hpaths
    exact hnone ⟨d, hd, path :: rest, hstep⟩

/-- Both functions answer, each on the pairs that are left to it. -/
theorem search_answers (rows cols : ℕ) (points : List (Point × Point)) (fuel : ℕ) :
    (∀ pointI curr s first last, points[pointI]? = some (first, last) →
        2 * free rows cols s.visited + 1 ≤ fuel →
        Answers rows cols s ((curr, last) :: points.drop (pointI + 1))
          (findPathFor rows cols points fuel pointI curr s)) ∧
      ∀ pointI s, 2 * free rows cols s.visited + 2 ≤ fuel →
        Answers rows cols s (points.drop pointI) (findPathsAux rows cols points fuel pointI s) := by
  induction fuel with
  | zero => exact ⟨fun _ _ _ _ _ _ hfuel => by omega, fun _ _ hfuel => by omega⟩
  | succ fuel ih =>
    obtain ⟨ihfor, ihaux⟩ := ih
    constructor
    · intro pointI curr s first last hpoint hfuel
      rw [findPathFor]
      by_cases hopen : Open rows cols s.visited curr
      · have hfree : free rows cols (s.mark curr true).visited < free rows cols s.visited :=
          free_mark hopen
        rw [if_neg (not_not_intro hopen)]
        simp only [hpoint]
        by_cases heq : curr = last
        · subst heq
          rw [if_pos rfl]
          exact answers_end hopen _ (ihaux (pointI + 1) (s.mark curr true) (by omega))
        · rw [if_neg heq]
          exact answers_step hopen heq fun d _ =>
            ihfor pointI _ (s.mark curr true) first last hpoint (by omega)
      · rw [if_pos hopen]
        exact Or.inr ⟨s, rfl, rfl, fun ⟨paths, hpaths⟩ => hopen hpaths.open_first⟩
    · intro pointI s hfuel
      rw [findPathsAux]
      cases hpoint : points[pointI]? with
      | none =>
        rw [List.drop_eq_nil_of_le (List.getElem?_eq_none_iff.mp hpoint)]
        by_cases hused : (used rows cols s.visited).toNat = rows * cols
        · simp only [hused]
          exact Or.inl ⟨s, rfl, [], routes_nil.mpr ⟨rfl, hused⟩, by simp⟩
        · simp only [hused]
          exact Or.inr ⟨s, rfl, rfl, fun ⟨paths, hpaths⟩ => hused (routes_nil.mp hpaths).2⟩
      | some pair =>
        obtain ⟨first, last⟩ := pair
        have hsplit : points.drop pointI = (first, last) :: points.drop (pointI + 1) := by
          obtain ⟨hlt, hget⟩ := List.getElem?_eq_some_iff.mp hpoint
          rw [List.drop_eq_getElem_cons hlt, hget]
        rw [hsplit]
        exact ihfor pointI first s first last hpoint (by omega)

end InterviewQuestions.PathFill

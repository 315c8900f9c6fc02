import Mathlib.Data.List.Nodup
import Mathlib.Data.Set.Card
import Mathlib.Tactic.Common

/-! `recursion_dp/n_queens/solution.c` -/
namespace InterviewQuestions.NQueens

abbrev Cell := ℤ × ℤ

/-- `unsigned board[x][x]` -/
abbrev Board := Cell → UInt32

/-- `board[i][j] += val` -/
def bump (val : UInt32) (board : Board) (cell : Cell) : Board :=
  fun c => if c = cell then board c + val else board c

def Inside (x : ℕ) (c : Cell) : Prop := 0 ≤ c.1 ∧ c.1 < x ∧ 0 ≤ c.2 ∧ c.2 < x

instance (x : ℕ) : DecidablePred (Inside x) := fun c =>
  inferInstanceAs (Decidable (0 ≤ c.1 ∧ c.1 < x ∧ 0 ≤ c.2 ∧ c.2 < x))

/-- The cells of a loop that goes away from the queen at `p` until it leaves the board. -/
def ray (x : ℕ) (p d : Cell) : List Cell :=
  ((List.range x).map fun k : ℕ => (p.1 + d.1 * (k + 1), p.2 + d.2 * (k + 1))).takeWhile
    fun c => Inside x c

/-- The directions of the loops in their order. -/
def directions : List Cell :=
  [(-1, 0), (1, 0), (0, -1), (0, 1), (-1, -1), (-1, 1), (1, -1), (1, 1)]

def updateQueen (x : ℕ) (board : Board) (p : Cell) (val : UInt32) : Board :=
  directions.foldl (fun board d => (ray x p d).foldl (bump val) board) (bump val board p)

def placeQueen (x : ℕ) (board : Board) (p : Cell) : Board := updateQueen x board p 1

def removeQueen (x : ℕ) (board : Board) (p : Cell) : Board := updateQueen x board p (-1)

/-- A turn of the loop, with the call in it. -/
def tryColumn (x : ℕ) (aux : Board → UInt64 × Board) (currRow : ℤ) (s : UInt64 × Board) (i : ℕ) :
    UInt64 × Board :=
  if s.2 (currRow, i) = 0 then
    let call := aux (placeQueen x s.2 (currRow, i))
    (s.1 + call.1, removeQueen x call.2 (currRow, i))
  else s

/-- The result and the board, with the number of rows that are left. -/
def queensArrangementsAux (x : ℕ) : ℕ → ℤ → Board → UInt64 × Board
  | 0, _, board => (1, board)
  | rows + 1, currRow, board =>
      (List.range x).foldl (tryColumn x (queensArrangementsAux x rows (currRow + 1)) currRow)
        (0, board)

def queensArrangements (x : ℕ) : UInt64 := (queensArrangementsAux x x 0 fun _ => 0).1

example : queensArrangements 4 = 2 := by decide +kernel

/-! ## The board -/

/-- In one row, column or diagonal. -/
def Attacks (p q : Cell) : Prop :=
  p.1 = q.1 ∨ p.2 = q.2 ∨ (p.1 - q.1).natAbs = (p.2 - q.2).natAbs

instance (p : Cell) : DecidablePred (Attacks p) := fun q =>
  inferInstanceAs (Decidable (p.1 = q.1 ∨ p.2 = q.2 ∨ (p.1 - q.1).natAbs = (p.2 - q.2).natAbs))

variable {x : ℕ} {p q c d : Cell} {board : Board} {val : UInt32} {cells : List Cell}

theorem foldl_bump (h : cells.Nodup) (val : UInt32) (board : Board) (c : Cell) :
    cells.foldl (bump val) board c = if c ∈ cells then board c + val else board c := by
  induction cells generalizing board with
  | nil => simp
  | cons cell cells ih =>
    rw [List.nodup_cons] at h
    rw [List.foldl_cons, ih h.2]
    by_cases hc : c = cell
    · subst hc
      simp [bump, h.1]
    · simp [bump, hc]

theorem mem_directions (hd : d ∈ directions) :
    (d.1 = -1 ∨ d.1 = 0 ∨ d.1 = 1) ∧ (d.2 = -1 ∨ d.2 = 0 ∨ d.2 = 1) ∧ d ≠ (0, 0) := by
  revert d
  decide

theorem nodup_ray (hd : d ∈ directions) : (ray x p d).Nodup := by
  apply List.Nodup.sublist (List.takeWhile_sublist _)
  apply List.nodup_range.map
  intro k l h
  obtain ⟨hrow, hcol⟩ := Prod.mk.inj h
  obtain ⟨hd1, hd2, hne⟩ := mem_directions hd
  by_cases h0 : d.1 = 0
  · have hcol' : d.2 ≠ 0 := fun h2 => hne (Prod.ext h0 h2)
    have := mul_left_cancel₀ hcol' (add_left_cancel hcol)
    omega
  · have := mul_left_cancel₀ h0 (add_left_cancel hrow)
    omega

theorem takeWhile_eq_filter {α : Type*} {P : α → Bool} {l : List α}
    (h : l.Pairwise fun a b => P b = true → P a = true) : l.takeWhile P = l.filter P := by
  induction l with
  | nil => rfl
  | cons a l ih =>
    rw [List.pairwise_cons] at h
    by_cases ha : P a = true
    · rw [List.takeWhile_cons_of_pos ha, List.filter_cons_of_pos ha, ih h.2]
    · rw [List.takeWhile_cons_of_neg ha, List.filter_cons_of_neg ha]
      exact (List.filter_eq_nil_iff.mpr fun b hb hbP => ha (h.1 b hb hbP)).symm

/-- A loop goes on as long as it is on the board, which it does not enter again. -/
theorem mem_ray (hp : Inside x p) (hd : d ∈ directions) :
    c ∈ ray x p d ↔ Inside x c ∧ ∃ k : ℕ, c = (p.1 + d.1 * (k + 1), p.2 + d.2 * (k + 1)) := by
  obtain ⟨hd1, hd2, hne⟩ := mem_directions hd
  have hpair : ((List.range x).map fun k : ℕ =>
      (p.1 + d.1 * (k + 1), p.2 + d.2 * (k + 1))).Pairwise
        fun a b => decide (Inside x b) = true → decide (Inside x a) = true := by
    refine List.pairwise_map.mpr (List.pairwise_lt_range.imp ?_)
    intro j k hjk hdecide
    have hk : Inside x _ := of_decide_eq_true hdecide
    apply decide_eq_true
    simp only [Inside] at hp hk ⊢
    rcases hd1 with h | h | h <;> rcases hd2 with h' | h' | h' <;> rw [h, h'] at hk ⊢ <;> omega
  rw [ray, takeWhile_eq_filter hpair, List.mem_filter, List.mem_map]
  simp only [decide_eq_true_eq, List.mem_range]
  constructor
  · rintro ⟨⟨k, -, rfl⟩, hc⟩
    exact ⟨hc, k, rfl⟩
  · rintro ⟨hc, k, rfl⟩
    refine ⟨⟨k, ?_, rfl⟩, hc⟩
    have hne' : d.1 = 0 → d.2 ≠ 0 := fun h h' => hne (Prod.ext h h')
    simp only [Inside] at hp hc
    rcases hd1 with h | h | h <;> rcases hd2 with h' | h' | h' <;> rw [h, h'] at hc <;> omega

/-- The direction of an attack. -/
def toward (p c : Cell) : Cell := (Int.sign (c.1 - p.1), Int.sign (c.2 - p.2))

theorem mem_ray_iff (hp : Inside x p) (hd : d ∈ directions) :
    c ∈ ray x p d ↔ Inside x c ∧ Attacks p c ∧ c ≠ p ∧ toward p c = d := by
  rw [mem_ray hp hd]
  obtain ⟨hd1, hd2, hne⟩ := mem_directions hd
  refine and_congr_right fun _ => ?_
  constructor
  · rintro ⟨k, rfl⟩
    have hsign (e : ℤ) (he : e = -1 ∨ e = 0 ∨ e = 1) : (e * ((k : ℤ) + 1)).sign = e := by
      rcases he with rfl | rfl | rfl
      · rw [neg_one_mul, Int.sign_neg, Int.sign_natCast_add_one]
      · rw [zero_mul, Int.sign_zero]
      · rw [one_mul, Int.sign_natCast_add_one]
    refine ⟨?_, ?_, ?_⟩
    · simp only [Attacks]
      rcases hd1 with h | h | h <;> rcases hd2 with h' | h' | h' <;> rw [h, h'] <;> omega
    · intro heq
      have hrow := congrArg Prod.fst heq
      have hcol := congrArg Prod.snd heq
      have hne' : d.1 = 0 → d.2 ≠ 0 := fun h h' => hne (Prod.ext h h')
      simp only at hrow hcol
      rcases hd1 with h | h | h <;> rcases hd2 with h' | h' | h' <;> rw [h] at hrow <;>
        rw [h'] at hcol <;> omega
    · simp only [toward, add_sub_cancel_left, hsign _ hd1, hsign _ hd2]
  · rintro ⟨hattacks, hcp, rfl⟩
    refine ⟨max (c.1 - p.1).natAbs (c.2 - p.2).natAbs - 1, ?_⟩
    have hne' : c.1 = p.1 → c.2 ≠ p.2 := fun h h' => hcp (Prod.ext h h')
    simp only [Attacks] at hattacks
    apply Prod.ext
    · rcases lt_trichotomy (c.1 - p.1) 0 with h | h | h
      · simp only [toward, Int.sign_eq_neg_one_of_neg h]
        omega
      · simp only [toward, h, Int.sign_zero]
        omega
      · simp only [toward, Int.sign_eq_one_of_pos h]
        omega
    · rcases lt_trichotomy (c.2 - p.2) 0 with h | h | h
      · simp only [toward, Int.sign_eq_neg_one_of_neg h]
        omega
      · simp only [toward, h, Int.sign_zero]
        omega
      · simp only [toward, Int.sign_eq_one_of_pos h]
        omega

theorem toward_mem (h : c ≠ p) : toward p c ∈ directions := by
  have hne : ¬ ((c.1 - p.1).sign = 0 ∧ (c.2 - p.2).sign = 0) := by
    rintro ⟨h1, h2⟩
    rw [Int.sign_eq_zero_iff_zero, sub_eq_zero] at h1 h2
    exact h (Prod.ext h1 h2)
  rcases Int.sign_trichotomy (c.1 - p.1) with h1 | h1 | h1 <;>
    rcases Int.sign_trichotomy (c.2 - p.2) with h2 | h2 | h2 <;>
    rw [toward, h1, h2] <;> try decide
  exact absurd ⟨h1, h2⟩ hne

/-- The cells that a queen changes, each of them once. -/
theorem updateQueen_apply (hp : Inside x p) (board : Board) (val : UInt32) (c : Cell) :
    updateQueen x board p val c = if Inside x c ∧ Attacks p c then board c + val else board c := by
  have hall : updateQueen x board p val =
      (p :: directions.flatMap (ray x p)).foldl (bump val) board := by
    rw [updateQueen, List.foldl_cons, List.foldl_flatMap]
  have hself : p ∉ directions.flatMap (ray x p) := by
    rw [List.mem_flatMap]
    rintro ⟨d, hd, hmem⟩
    exact ((mem_ray_iff hp hd).mp hmem).2.2.1 rfl
  have hnodup : (directions.flatMap (ray x p)).Nodup := by
    refine List.nodup_flatMap.mpr ⟨fun d hd => nodup_ray hd, ?_⟩
    have hdirections : directions.Nodup := by decide
    refine List.Pairwise.imp_of_mem ?_ hdirections
    intro d e hd he hde
    simp only [Function.onFun, List.disjoint_left]
    intro c hc hc'
    exact hde (((mem_ray_iff hp hd).mp hc).2.2.2.symm.trans ((mem_ray_iff hp he).mp hc').2.2.2)
  have hmem : c ∈ p :: directions.flatMap (ray x p) ↔ Inside x c ∧ Attacks p c := by
    rw [List.mem_cons, List.mem_flatMap]
    constructor
    · rintro (rfl | ⟨d, hd, hc⟩)
      · exact ⟨hp, Or.inl rfl⟩
      · obtain ⟨hinside, hattacks, -⟩ := (mem_ray_iff hp hd).mp hc
        exact ⟨hinside, hattacks⟩
    · rintro ⟨hinside, hattacks⟩
      by_cases hc : c = p
      · exact Or.inl hc
      · have hd := toward_mem hc
        exact Or.inr ⟨_, hd, (mem_ray_iff hp hd).mpr ⟨hinside, hattacks, hc, rfl⟩⟩
  rw [hall, foldl_bump (List.nodup_cons.mpr ⟨hself, hnodup⟩)]
  exact if_congr hmem rfl rfl

theorem removeQueen_placeQueen (hp : Inside x p) (board : Board) :
    removeQueen x (placeQueen x board p) p = board := by
  funext c
  rw [removeQueen, placeQueen, updateQueen_apply hp, updateQueen_apply hp]
  split
  · rw [UInt32.add_assoc]
    exact UInt32.add_zero _
  · rfl

/-! ## The queens -/

/-- The queens of the first rows, by their columns. -/
def placed (qs : List ℕ) : List Cell := qs.zipIdx.map fun (column, row) => (↑row, ↑column)

/-- A queen in the next row. -/
def next (qs : List ℕ) (column : ℕ) : Cell := (qs.length, column)

def Free (qs : List ℕ) (column : ℕ) : Prop := ∀ q ∈ placed qs, ¬ Attacks q (next qs column)

instance (qs : List ℕ) : DecidablePred (Free qs) := fun column =>
  inferInstanceAs (Decidable (∀ q ∈ placed qs, ¬ Attacks q (next qs column)))

/-- The queens are on the board, and none attacks another. -/
structure Peaceful (x : ℕ) (qs : List ℕ) : Prop where
  columns : ∀ column ∈ qs, column < x
  apart : (placed qs).Pairwise fun p q => ¬ Attacks p q

/-- The ways to put queens into all rows. -/
def Arrangements (x : ℕ) : Set (List ℕ) := {qs | qs.length = x ∧ Peaceful x qs}

/-- The counters on the board. -/
def Represents (x : ℕ) (qs : List ℕ) (board : Board) : Prop :=
  ∀ c, Inside x c → board c = UInt32.ofNat ((placed qs).countP fun q => Attacks q c)

variable {qs qs' : List ℕ} {column rows : ℕ}

theorem placed_append (qs : List ℕ) (column : ℕ) :
    placed (qs ++ [column]) = placed qs ++ [next qs column] := by
  simp [placed, List.zipIdx_append, next]

theorem length_placed (qs : List ℕ) : (placed qs).length = qs.length := by
  simp [placed]

theorem peaceful_append : Peaceful x (qs ++ [column]) ↔
    Peaceful x qs ∧ column < x ∧ Free qs column := by
  constructor
  · rintro ⟨hcolumns, hapart⟩
    rw [placed_append, List.pairwise_append] at hapart
    exact ⟨⟨fun c hc => hcolumns c (List.mem_append_left _ hc), hapart.1⟩,
      hcolumns column (by simp), fun q hq => hapart.2.2 q hq _ (List.mem_singleton_self _)⟩
  · rintro ⟨⟨hcolumns, hapart⟩, hcolumn, hfree⟩
    constructor
    · intro c hc
      rcases List.mem_append.mp hc with hc | hc
      · exact hcolumns c hc
      · rwa [List.mem_singleton.mp hc]
    · rw [placed_append, List.pairwise_append]
      refine ⟨hapart, List.pairwise_singleton _ _, fun q hq r hr => ?_⟩
      rw [List.mem_singleton.mp hr]
      exact hfree q hq

theorem Peaceful.beginning (h : Peaceful x qs') (hpre : qs <+: qs') : Peaceful x qs := by
  obtain ⟨rest, rfl⟩ := hpre
  induction rest using List.reverseRecOn with
  | nil => simpa using h
  | append_singleton rest column ih =>
    rw [← List.append_assoc, peaceful_append] at h
    exact ih h.1

theorem inside_next (hlen : qs.length < x) (hcolumn : column < x) :
    Inside x (next qs column) := by
  simp only [Inside, next]
  omega

/-- The test of the code. -/
theorem Represents.eq_zero_iff (h : Represents x qs board) (hx : x < 2 ^ 32)
    (hlen : qs.length < x) (hcolumn : column < x) :
    board (next qs column) = 0 ↔ Free qs column := by
  have hle : (placed qs).countP (fun q => Attacks q (next qs column)) ≤ (placed qs).length :=
    List.countP_le_length
  rw [length_placed] at hle
  have hzero : (0 : UInt32).toNat = 0 := rfl
  have hlt : (placed qs).countP (fun q => Attacks q (next qs column)) < UInt32.size := by
    simp only [UInt32.size]
    omega
  rw [h _ (inside_next hlen hcolumn), ← UInt32.toNat_inj, UInt32.toNat_ofNat', hzero,
    Nat.mod_eq_of_lt hlt, List.countP_eq_zero]
  simp [Free]

theorem Represents.place (h : Represents x qs board) (hlen : qs.length < x) (hcolumn : column < x) :
    Represents x (qs ++ [column]) (placeQueen x board (next qs column)) := by
  intro c hc
  rw [placeQueen, updateQueen_apply (inside_next hlen hcolumn), placed_append, List.countP_append,
    List.countP_singleton]
  by_cases hattacks : Attacks (next qs column) c
  · rw [if_pos ⟨hc, hattacks⟩, h c hc]
    simp [hattacks]
  · rw [if_neg fun hboth => hattacks hboth.2, h c hc]
    simp [hattacks]

/-- The arrangements that begin with some queens, in the order in which they are counted. -/
def arrangements (x : ℕ) : ℕ → List ℕ → List (List ℕ)
  | 0, qs => [qs]
  | rows + 1, qs =>
      ((List.range x).filter fun column => Free qs column).flatMap
        fun column => arrangements x rows (qs ++ [column])

theorem mem_arrangements (h : Peaceful x qs) :
    qs' ∈ arrangements x rows qs ↔
      Peaceful x qs' ∧ qs <+: qs' ∧ qs'.length = qs.length + rows := by
  induction rows generalizing qs with
  | zero =>
    rw [arrangements, List.mem_singleton]
    constructor
    · rintro rfl
      exact ⟨h, List.prefix_rfl, rfl⟩
    · rintro ⟨-, hpre, hlen⟩
      exact (hpre.eq_of_length hlen.symm).symm
  | succ rows ih =>
    simp only [arrangements, List.mem_flatMap, List.mem_filter, List.mem_range, decide_eq_true_eq]
    constructor
    · rintro ⟨column, ⟨hcolumn, hfree⟩, hmem⟩
      obtain ⟨hpeaceful, hpre, hlen⟩ := (ih (peaceful_append.mpr ⟨h, hcolumn, hfree⟩)).mp hmem
      refine ⟨hpeaceful, (List.prefix_append _ _).trans hpre, ?_⟩
      rw [hlen, List.length_append, List.length_singleton]
      omega
    · rintro ⟨hpeaceful, ⟨rest, rfl⟩, hlen⟩
      cases rest with
      | nil => simp at hlen
      | cons column rest =>
        have hpre : qs ++ [column] <+: qs ++ column :: rest := by simp
        obtain ⟨-, hcolumn, hfree⟩ := peaceful_append.mp (hpeaceful.beginning hpre)
        refine ⟨column, ⟨hcolumn, hfree⟩,
          (ih (peaceful_append.mpr ⟨h, hcolumn, hfree⟩)).mpr ⟨hpeaceful, hpre, ?_⟩⟩
        rw [hlen, List.length_append, List.length_singleton]
        omega

theorem nodup_arrangements (h : Peaceful x qs) : (arrangements x rows qs).Nodup := by
  induction rows generalizing qs with
  | zero => exact List.nodup_singleton qs
  | succ rows ih =>
    have hnext {column : ℕ} (hmem : column ∈ (List.range x).filter fun column => Free qs column) :
        Peaceful x (qs ++ [column]) := by
      simp only [List.mem_filter, List.mem_range, decide_eq_true_eq] at hmem
      exact peaceful_append.mpr ⟨h, hmem.1, hmem.2⟩
    refine List.nodup_flatMap.mpr ⟨fun column hmem => ih (hnext hmem), ?_⟩
    refine List.Pairwise.imp_of_mem ?_ (List.nodup_range.filter _)
    intro a b ha hb hab
    simp only [Function.onFun, List.disjoint_left]
    intro longer hlonger hlonger'
    have hpre := ((mem_arrangements (hnext ha)).mp hlonger).2.1
    have hpre' := ((mem_arrangements (hnext hb)).mp hlonger').2.1
    have heq := List.prefix_of_prefix_length_le hpre hpre' (by simp)
    have hsame := heq.eq_of_length (by simp)
    exact hab (by simpa using hsame)

/-! ## The search -/

/-- Each arrangement is counted once, and the board is left as it was. -/
theorem queensArrangementsAux_eq (hx : x < 2 ^ 32) (h : Represents x qs board)
    (hlen : qs.length + rows = x) :
    queensArrangementsAux x rows qs.length board =
      (UInt64.ofNat (arrangements x rows qs).length, board) := by
  induction rows generalizing qs board with
  | zero => rfl
  | succ rows ih =>
    have hlt : qs.length < x := by omega
    have hcall {column : ℕ} (hcolumn : column < x) :
        queensArrangementsAux x rows (↑qs.length + 1) (placeQueen x board (next qs column)) =
          (UInt64.ofNat (arrangements x rows (qs ++ [column])).length,
            placeQueen x board (next qs column)) := by
      have hnext := ih (h.place hlt hcolumn) (by simp; omega)
      rwa [List.length_append, List.length_singleton, Nat.cast_add, Nat.cast_one] at hnext
    have hturn (res : UInt64) {column : ℕ} (hcolumn : column < x) :
        tryColumn x (queensArrangementsAux x rows (↑qs.length + 1)) qs.length (res, board) column =
          if Free qs column then
            (res + UInt64.ofNat (arrangements x rows (qs ++ [column])).length, board)
          else (res, board) := by
      change (if board (next qs column) = 0 then _ else _) = _
      refine if_congr (h.eq_zero_iff hx hlt hcolumn) ?_ rfl
      change (res + (queensArrangementsAux x rows (↑qs.length + 1)
        (placeQueen x board (next qs column))).1, removeQueen x (queensArrangementsAux x rows
          (↑qs.length + 1) (placeQueen x board (next qs column))).2 (next qs column)) = _
      rw [hcall hcolumn, removeQueen_placeQueen (inside_next hlt hcolumn)]
    have hloop (columns : List ℕ) (hcolumns : ∀ column ∈ columns, column < x) (res : UInt64) :
        columns.foldl (tryColumn x (queensArrangementsAux x rows (↑qs.length + 1)) qs.length)
            (res, board) =
          (res + UInt64.ofNat ((columns.filter fun column => Free qs column).flatMap
            fun column => arrangements x rows (qs ++ [column])).length, board) := by
      induction columns generalizing res with
      | nil => simp
      | cons column columns ihloop =>
        rw [List.forall_mem_cons] at hcolumns
        rw [List.foldl_cons, hturn res hcolumns.1]
        by_cases hfree : Free qs column
        · rw [if_pos hfree, ihloop hcolumns.2, List.filter_cons_of_pos (by simpa using hfree),
            List.flatMap_cons, List.length_append, UInt64.ofNat_add, UInt64.add_assoc]
        · rw [if_neg hfree, ihloop hcolumns.2, List.filter_cons_of_neg (by simpa using hfree)]
    rw [queensArrangementsAux, hloop _ (fun column hcolumn => List.mem_range.mp hcolumn),
      UInt64.zero_add]
    rfl

end InterviewQuestions.NQueens

import Mathlib.Data.Int.Order.Basic
import Mathlib.Data.Fin.VecNotation
import Mathlib.Order.Fin.Basic
import Mathlib.Tactic.Common

/-! `sorting_searching/2d_binsearch/solution.c`. There is no result where an index is out of range,
and where the loop has more than `fuel` iterations. -/
namespace InterviewQuestions.BinSearch2d

variable {M N : ℕ}

/-- `matrix[r][c]` -/
def read (matrix : Fin M → Fin N → ℤ) (r c : ℤ) : Option ℤ :=
  if h : (0 ≤ r ∧ r < M) ∧ 0 ≤ c ∧ c < N then
    some (matrix ⟨r.toNat, by omega⟩ ⟨c.toNat, by omega⟩)
  else none

/-- `bin_search_diagonal` from its loop on. -/
def diagonalLoop (matrix : Fin M → Fin N → ℤ) (rowL rowR val : ℤ) :
    ℕ → ℤ → ℤ → ℤ → ℤ → Option ℤ
  | 0, _, _, _, _ => none
  | fuel + 1, xL, xR, yL, yR =>
      if xL ≤ xR ∧ yL ≤ yR then do
        let midX := xL + (xR - xL).tdiv 2
        let midY := yL + (yR - yL).tdiv 2
        let entry ← read matrix midX midY
        if entry = val then return midX - rowL
        else if entry < val then
          diagonalLoop matrix rowL rowR val fuel (midX + 1) xR (midY + 1) yR
        else diagonalLoop matrix rowL rowR val fuel xL (midX - 1) yL (midY - 1)
      else if xR < rowL then some 0
      else if xL > rowR then some (rowR - rowL)
      else some (xR - rowL)

def binSearchDiagonal (fuel : ℕ) (matrix : Fin M → Fin N → ℤ) (rowL rowR colL colR val : ℤ) :
    Option ℤ :=
  let xR := rowL + colR - colL
  let yR := colR
  if xR > rowR ∨ yR > colR then some 0
  else diagonalLoop matrix rowL rowR val fuel rowL xR colL yR

/-- There is no result where the calls nest deeper than `depth`. -/
def binSearch2dAux (fuel : ℕ) (matrix : Fin M → Fin N → ℤ) (val : ℤ) :
    ℕ → ℤ → ℤ → ℤ → ℤ → Option (ℤ × ℤ)
  | 0, _, _, _, _ => none
  | depth + 1, rowL, rowR, colL, colR =>
      if rowL > rowR ∨ colL > colR then some (-1, -1)
      else if rowL = rowR ∧ colL = colR then do
        if (← read matrix rowL colL) = val then return (rowL, colL) else return (-1, -1)
      else do
        let diagL ← binSearchDiagonal fuel matrix rowL rowR colL colR val
        let diagH := diagL + 1
        let entry ← read matrix (rowL + diagL) (colL + diagL)
        if entry = val then return (rowL + diagL, colL + diagL)
        else
          let res ←
            if val < entry then
              binSearch2dAux fuel matrix val depth rowL (rowL + diagL) colL (colL + diagL)
            else if rowL + diagH ≤ rowR ∧ colL + diagH ≤ colR then do
              if val > (← read matrix (rowL + diagH) (colL + diagH)) then
                binSearch2dAux fuel matrix val depth (rowL + diagH) rowR (colL + diagH) colR
              else some (-1, -1)
            else some (-1, -1)
          let res ←
            if res.1 = -1 then
              binSearch2dAux fuel matrix val depth rowL (rowL + diagL) (colL + diagH) colR
            else some res
          if res.1 = -1 then
            binSearch2dAux fuel matrix val depth (rowL + diagH) rowR colL (colL + diagL)
          else some res

def binSearch2d (fuel depth : ℕ) (matrix : Fin M → Fin N → ℤ) (val : ℤ) : Option (ℤ × ℤ) :=
  binSearch2dAux fuel matrix val depth 0 (M - 1) 0 (N - 1)

/-! ## Sorted matrices -/

structure Sorted (matrix : Fin M → Fin N → ℤ) : Prop where
  rows : ∀ i j j', j ≤ j' → matrix i j ≤ matrix i j'
  cols : ∀ j i i', i ≤ i' → matrix i j ≤ matrix i' j

variable {matrix : Fin M → Fin N → ℤ} {val r r' c c' d e : ℤ} {fuel depth : ℕ}

/-- The entry at a place of the matrix. -/
def cell (matrix : Fin M → Fin N → ℤ) (r c : ℤ) : ℤ := (read matrix r c).getD 0

theorem read_eq (hr : 0 ≤ r) (hr' : r < M) (hc : 0 ≤ c) (hc' : c < N) :
    read matrix r c = some (cell matrix r c) := by
  rw [cell, read, dif_pos ⟨⟨hr, hr'⟩, hc, hc'⟩]
  rfl

theorem cell_natCast (matrix : Fin M → Fin N → ℤ) (i : Fin M) (j : Fin N) :
    cell matrix (i : ℕ) (j : ℕ) = matrix i j := by
  have hin : (0 ≤ ((i : ℕ) : ℤ) ∧ ((i : ℕ) : ℤ) < M) ∧ 0 ≤ ((j : ℕ) : ℤ) ∧ ((j : ℕ) : ℤ) < N := by
    omega
  rw [cell, read, dif_pos hin]
  rfl

theorem Sorted.cell_le (h : Sorted matrix) (hr : 0 ≤ r) (hrr : r ≤ r') (hr' : r' < M)
    (hc : 0 ≤ c) (hcc : c ≤ c') (hc' : c' < N) : cell matrix r c ≤ cell matrix r' c' := by
  obtain ⟨i, rfl⟩ := Int.eq_ofNat_of_zero_le hr
  obtain ⟨j, rfl⟩ := Int.eq_ofNat_of_zero_le hc
  obtain ⟨i', rfl⟩ := Int.eq_ofNat_of_zero_le (hr.trans hrr)
  obtain ⟨j', rfl⟩ := Int.eq_ofNat_of_zero_le (hc.trans hcc)
  have hi : i' < M := by omega
  have hj : j' < N := by omega
  have hrow := h.rows ⟨i, by omega⟩ _ _ (show (⟨j, by omega⟩ : Fin N) ≤ ⟨j', hj⟩ from by
    rw [Fin.mk_le_mk]
    omega)
  have hcol := h.cols ⟨j', hj⟩ _ _ (show (⟨i, by omega⟩ : Fin M) ≤ ⟨i', hi⟩ from by
    rw [Fin.mk_le_mk]
    omega)
  calc cell matrix i j
    _ = matrix ⟨i, by omega⟩ ⟨j, by omega⟩ := cell_natCast matrix ⟨i, by omega⟩ ⟨j, by omega⟩
    _ ≤ matrix ⟨i, by omega⟩ ⟨j', hj⟩ := hrow
    _ ≤ matrix ⟨i', hi⟩ ⟨j', hj⟩ := hcol
    _ = cell matrix i' j' := (cell_natCast matrix ⟨i', hi⟩ ⟨j', hj⟩).symm

structure Rect where
  rowL : ℤ
  rowR : ℤ
  colL : ℤ
  colR : ℤ

variable {R R' : Rect}

def Rect.Has (R : Rect) (p : ℤ × ℤ) : Prop :=
  (R.rowL ≤ p.1 ∧ p.1 ≤ R.rowR) ∧ R.colL ≤ p.2 ∧ p.2 ≤ R.colR

theorem Rect.has_mk {a b : ℤ} {p : ℤ × ℤ} :
    (⟨a, b, c, d⟩ : Rect).Has p ↔ (a ≤ p.1 ∧ p.1 ≤ b) ∧ c ≤ p.2 ∧ p.2 ≤ d :=
  Iff.rfl

/-- All of it is in the matrix. -/
structure Inside (M N : ℕ) (R : Rect) : Prop where
  rowL : 0 ≤ R.rowL
  rowR : R.rowR < M
  colL : 0 ≤ R.colL
  colR : R.colR < N

/-- Its diagonal does not reach its last column. -/
def Rect.Wide (R : Rect) : Prop := R.rowR - R.rowL < R.colR - R.colL

/-- The entry on the diagonal. -/
def diagonal (matrix : Fin M → Fin N → ℤ) (R : Rect) (d : ℤ) : ℤ :=
  cell matrix (R.rowL + d) (R.colL + d)

theorem Sorted.diagonal_le (h : Sorted matrix) (hR : Inside M N R) (hd : 0 ≤ d) (hde : d ≤ e)
    (hrow : R.rowL + e ≤ R.rowR) (hcol : R.colL + e ≤ R.colR) :
    diagonal matrix R d ≤ diagonal matrix R e := by
  obtain ⟨h1, h2, h3, h4⟩ := hR
  exact h.cell_le (by omega) (by omega) (by omega) (by omega) (by omega) (by omega)

/-! ## The diagonal -/

/-- Where the diagonal goes from entries below the value to entries above it. A wide rectangle is
taken to be split behind its first entry. -/
structure Splits (matrix : Fin M → Fin N → ℤ) (val : ℤ) (R : Rect) (d : ℤ) : Prop where
  low : 0 ≤ d
  row : R.rowL + d ≤ R.rowR
  col : R.colL + d ≤ R.colR
  wide : R.Wide → d = 0
  below : diagonal matrix R d < val
  above : ¬ R.Wide → ∀ e, d < e → e ≤ R.colR - R.colL → val < diagonal matrix R e

/-- What `bin_search_diagonal` returns. -/
structure Found (matrix : Fin M → Fin N → ℤ) (val : ℤ) (R : Rect) (d : ℤ) : Prop where
  low : 0 ≤ d
  row : R.rowL + d ≤ R.rowR
  col : R.colL + d ≤ R.colR
  wide : R.Wide → d = 0
  entry : diagonal matrix R d = val ∨ (d = 0 ∧ val < diagonal matrix R 0) ∨ Splits matrix val R d

theorem diagonalLoop_spec (val : ℤ) (hs : Sorted matrix) (hR : Inside M N R)
    (hcols : R.colL ≤ R.colR) (hwide : ¬ R.Wide) {low high : ℤ} (hlow : 0 ≤ low)
    (hle : low ≤ high + 1) (hhigh : high ≤ R.colR - R.colL)
    (hbelow : ∀ e, 0 ≤ e → e < low → diagonal matrix R e < val)
    (habove : ∀ e, high < e → e ≤ R.colR - R.colL → val < diagonal matrix R e)
    (hfuel : high - low + 1 < fuel) :
    ∃ d, diagonalLoop matrix R.rowL R.rowR val fuel (R.rowL + low) (R.rowL + high) (R.colL + low)
      (R.colL + high) = some d ∧ Found matrix val R d := by
  have hin := hR
  obtain ⟨h1, h2, h3, h4⟩ := hin
  rw [Rect.Wide] at hwide
  induction fuel generalizing low high with
  | zero => omega
  | succ fuel ih =>
    by_cases hgo : low ≤ high
    · set mid := low + (high - low) / 2 with hmid
      have hrow : R.rowL + low + (R.rowL + high - (R.rowL + low)).tdiv 2 = R.rowL + mid := by
        rw [Int.tdiv_eq_ediv_of_nonneg (by omega)]
        omega
      have hcol : R.colL + low + (R.colL + high - (R.colL + low)).tdiv 2 = R.colL + mid := by
        rw [Int.tdiv_eq_ediv_of_nonneg (by omega)]
        omega
      have hread : read matrix (R.rowL + mid) (R.colL + mid) = some (diagonal matrix R mid) :=
        read_eq (by omega) (by omega) (by omega) (by omega)
      rw [diagonalLoop, if_pos (by omega)]
      simp only [hrow, hcol, hread, Option.bind_eq_bind, Option.bind_some, Option.pure_def]
      split_ifs with heq hlt
      · exact ⟨mid, congrArg some (by omega), by omega, by omega, by omega,
          fun h => absurd h hwide, .inl heq⟩
      · rw [show R.rowL + mid + 1 = R.rowL + (mid + 1) by omega,
          show R.colL + mid + 1 = R.colL + (mid + 1) by omega]
        refine ih (by omega) (by omega) hhigh (fun e he hem => ?_) habove (by omega)
        exact (hs.diagonal_le hR he (by omega : e ≤ mid) (by omega) (by omega)).trans_lt hlt
      · rw [show R.rowL + mid - 1 = R.rowL + (mid - 1) by omega,
          show R.colL + mid - 1 = R.colL + (mid - 1) by omega]
        refine ih hlow (by omega) (by omega) hbelow (fun e hem he => ?_) (by omega)
        have hle := hs.diagonal_le hR (by omega) (by omega : mid ≤ e) (by omega) (by omega)
        omega
    · rw [diagonalLoop, if_neg (by omega)]
      have hsplit (hnonneg : 0 ≤ high) : Found matrix val R high :=
        ⟨hnonneg, by omega, by omega, fun h => absurd h hwide, .inr (.inr
          ⟨hnonneg, by omega, by omega, fun h => absurd h hwide,
            hbelow high hnonneg (by omega), fun _ => habove⟩)⟩
      split_ifs with hnone hall
      · exact ⟨0, rfl, le_rfl, by omega, by omega, fun _ => rfl,
          .inr (.inl ⟨rfl, habove 0 (by omega) (by omega)⟩)⟩
      · exact ⟨high, congrArg some (by omega), hsplit (by omega)⟩
      · exact ⟨high, congrArg some (by omega), hsplit (by omega)⟩

theorem binSearchDiagonal_wide (hrows : R.rowL ≤ R.rowR)
    (hcols : R.colL ≤ R.colR) (hwide : R.Wide) :
    binSearchDiagonal fuel matrix R.rowL R.rowR R.colL R.colR val = some 0 ∧
      Found matrix val R 0 := by
  constructor
  · rw [Rect.Wide] at hwide
    exact if_pos (.inl (by omega))
  · refine ⟨le_rfl, by omega, by omega, fun _ => rfl, ?_⟩
    rcases lt_trichotomy (diagonal matrix R 0) val with hlt | heq | hgt
    · exact .inr (.inr ⟨le_rfl, by omega, by omega, fun _ => rfl, hlt, fun h => absurd hwide h⟩)
    · exact .inl heq
    · exact .inr (.inl ⟨rfl, hgt⟩)

theorem binSearchDiagonal_spec (val : ℤ) (hs : Sorted matrix) (hR : Inside M N R)
    (hrows : R.rowL ≤ R.rowR) (hcols : R.colL ≤ R.colR) (hfuel : N < fuel) :
    ∃ d, binSearchDiagonal fuel matrix R.rowL R.rowR R.colL R.colR val = some d ∧
      Found matrix val R d := by
  by_cases hwide : R.Wide
  · exact ⟨0, binSearchDiagonal_wide hrows hcols hwide⟩
  · have hwidth : R.colR - R.colL - 0 + 1 < fuel := by
      have := hR.colL
      have := hR.colR
      omega
    obtain ⟨d, hd, hfound⟩ := diagonalLoop_spec val hs hR hcols hwide le_rfl
      (by omega : (0 : ℤ) ≤ R.colR - R.colL + 1) le_rfl (fun e he he' => by omega)
      (fun e he he' => by omega) (hwidth : R.colR - R.colL - 0 + 1 < fuel)
    refine ⟨d, ?_, hfound⟩
    rw [Rect.Wide] at hwide
    rw [binSearchDiagonal, if_neg (by omega)]
    rw [show R.rowL + R.colR - R.colL = R.rowL + (R.colR - R.colL) by omega]
    simpa only [Int.add_zero, show R.colL + (R.colR - R.colL) = R.colR by omega] using hd

/-! ## The parts -/

theorem Splits.eq (hd : Splits matrix val R d) (he : Splits matrix val R e) : d = e := by
  by_cases hwide : R.Wide
  · rw [hd.wide hwide, he.wide hwide]
  · have := hd.col
    have := he.col
    rcases lt_trichotomy d e with hlt | heq | hgt
    · exact absurd (hd.above hwide e hlt (by omega)) he.below.not_gt
    · exact heq
    · exact absurd (he.above hwide d hgt (by omega)) hd.below.not_gt

/-- The rectangles that `bin_search_2d_aux` goes on with behind an entry below the value. -/
inductive Part (matrix : Fin M → Fin N → ℤ) (val : ℤ) (R : Rect) : Rect → Prop
  | lowerRight : Splits matrix val R 0 → R.Wide → R.rowL < R.rowR → diagonal matrix R 1 < val →
      Part matrix val R ⟨R.rowL + 1, R.rowR, R.colL + 1, R.colR⟩
  | upperRight {d : ℤ} : Splits matrix val R d →
      Part matrix val R ⟨R.rowL, R.rowL + d, R.colL + d + 1, R.colR⟩
  | lowerLeft {d : ℤ} : Splits matrix val R d →
      Part matrix val R ⟨R.rowL + d + 1, R.rowR, R.colL, R.colL + d⟩

/-- The value is the second entry on the diagonal of a wide rectangle, and the place is below and to
the right of the first: `val > matrix[diag_row_h][diag_col_h]` fails, and no part has it. -/
inductive Overlooked (matrix : Fin M → Fin N → ℤ) (val : ℤ) (p : ℤ × ℤ) : Rect → Prop
  | here {R : Rect} : R.Wide → R.rowL < R.rowR → diagonal matrix R 0 < val →
      diagonal matrix R 1 = val → R.rowL < p.1 → R.colL < p.2 → Overlooked matrix val p R
  | inside {R R' : Rect} : Part matrix val R R' → R'.Has p → Overlooked matrix val p R' →
      Overlooked matrix val p R

theorem Part.eq {R₁ R₂ : Rect} {p : ℤ × ℤ} (h₁ : Part matrix val R R₁)
    (h₂ : Part matrix val R R₂) (hp₁ : R₁.Has p) (hp₂ : R₂.Has p) : R₁ = R₂ := by
  cases h₁ with
  | lowerRight h0 hwide hrows hsecond =>
    rw [Rect.has_mk] at hp₁
    cases h₂ with
    | lowerRight => rfl
    | upperRight hd => have := hd.wide hwide; rw [Rect.has_mk] at hp₂; omega
    | lowerLeft hd => have := hd.wide hwide; rw [Rect.has_mk] at hp₂; omega
  | upperRight hd =>
    rw [Rect.has_mk] at hp₁
    cases h₂ with
    | lowerRight _ hwide => have := hd.wide hwide; rw [Rect.has_mk] at hp₂; omega
    | upperRight he => rw [hd.eq he]
    | lowerLeft he => have := hd.eq he; rw [Rect.has_mk] at hp₂; omega
  | lowerLeft hd =>
    rw [Rect.has_mk] at hp₁
    cases h₂ with
    | lowerRight _ hwide => have := hd.wide hwide; rw [Rect.has_mk] at hp₂; omega
    | upperRight he => have := hd.eq he; rw [Rect.has_mk] at hp₂; omega
    | lowerLeft he => rw [hd.eq he]

theorem Part.has (h : Part matrix val R R') {p : ℤ × ℤ} (hp : R'.Has p) : R.Has p := by
  rw [Rect.Has]
  cases h with
  | lowerRight => rw [Rect.has_mk] at hp; omega
  | upperRight hd => have := hd.low; have := hd.row; rw [Rect.has_mk] at hp; omega
  | lowerLeft hd => have := hd.low; have := hd.col; rw [Rect.has_mk] at hp; omega

theorem Part.overlooked_iff (h : Part matrix val R R') {p : ℤ × ℤ} (hp : R'.Has p) :
    Overlooked matrix val p R ↔ Overlooked matrix val p R' := by
  constructor
  · rintro (⟨hwide, -, -, hsecond, hrow, hcol⟩ | ⟨h', hp', hover⟩)
    · cases h with
      | lowerRight _ _ _ hlt => omega
      | upperRight hd => have := hd.wide hwide; rw [Rect.has_mk] at hp; omega
      | lowerLeft hd => have := hd.wide hwide; rw [Rect.has_mk] at hp; omega
    · rwa [h.eq h' hp hp']
  · exact .inside h hp

/-- What is searched is in a part. -/
theorem Splits.exists_part (hs : Sorted matrix) (hR : Inside M N R) (hd : Splits matrix val R d)
    {p : ℤ × ℤ} (hp : R.Has p) (hval : cell matrix p.1 p.2 = val)
    (hover : ¬ Overlooked matrix val p R) : ∃ R', Part matrix val R R' ∧ R'.Has p := by
  obtain ⟨h1, h2, h3, h4⟩ := hR
  obtain ⟨⟨hp1, hp2⟩, hp3, hp4⟩ := hp
  have hlow := hd.low
  have hdrow := hd.row
  have hdcol := hd.col
  by_cases hrow : p.1 ≤ R.rowL + d
  · by_cases hcol : p.2 ≤ R.colL + d
    · have hle : cell matrix p.1 p.2 ≤ diagonal matrix R d :=
        hs.cell_le (by omega) hrow (by omega) (by omega) hcol (by omega)
      have := hd.below
      omega
    · exact ⟨_, .upperRight hd, Rect.has_mk.2 (by omega)⟩
  · by_cases hcol : p.2 ≤ R.colL + d
    · exact ⟨_, .lowerLeft hd, Rect.has_mk.2 (by omega)⟩
    · have hnext : diagonal matrix R (d + 1) ≤ cell matrix p.1 p.2 :=
        hs.cell_le (by omega) (by omega) (by omega) (by omega) (by omega) (by omega)
      by_cases hwide : R.Wide
      · obtain rfl : d = 0 := hd.wide hwide
        rcases hnext.lt_or_eq with hlt | heq
        · exact ⟨_, .lowerRight hd hwide (by omega) (hlt.trans_eq hval), Rect.has_mk.2 (by omega)⟩
        · have hsecond := heq.trans hval
          exact absurd (.here hwide (by omega) hd.below hsecond (by omega) (by omega)) hover
      · have := hd.above hwide (d + 1) (by omega) (by omega)
        omega

/-! ## The search -/

/-- The places of the value that the search of the rectangle can come to. -/
def findable (matrix : Fin M → Fin N → ℤ) (val : ℤ) (R : Rect) : Set (ℤ × ℤ) :=
  {p | R.Has p ∧ cell matrix p.1 p.2 = val ∧ ¬ Overlooked matrix val p R}

theorem findable_eq_empty (h : ∀ p, R.Has p → cell matrix p.1 p.2 ≠ val) :
    findable matrix val R = ∅ :=
  Set.eq_empty_of_forall_notMem fun p hp => h p hp.1 hp.2.1

theorem Splits.mem_findable (hs : Sorted matrix) (hR : Inside M N R)
    (hd : Splits matrix val R d) {p : ℤ × ℤ} :
    p ∈ findable matrix val R ↔ ∃ R', Part matrix val R R' ∧ p ∈ findable matrix val R' := by
  constructor
  · rintro ⟨hp, hval, hover⟩
    obtain ⟨R', hpart, hp'⟩ := hd.exists_part hs hR hp hval hover
    exact ⟨R', hpart, hp', hval, mt (hpart.overlooked_iff hp').2 hover⟩
  · rintro ⟨R', hpart, hp, hval, hover⟩
    exact ⟨hpart.has hp, hval, mt (hpart.overlooked_iff hp).1 hover⟩

/-- The part below and to the right is there only where `matrix[diag_row_h][diag_col_h]` is in the
rectangle and below the value. -/
theorem Splits.findable_eq (hs : Sorted matrix) (hR : Inside M N R) (hd : Splits matrix val R d)
    {S : Set (ℤ × ℤ)} (hS : ∀ p, p ∈ S ↔
      (R.rowL + (d + 1) ≤ R.rowR ∧ R.colL + (d + 1) ≤ R.colR ∧ diagonal matrix R (d + 1) < val) ∧
        p ∈ findable matrix val ⟨R.rowL + (d + 1), R.rowR, R.colL + (d + 1), R.colR⟩) :
    findable matrix val R = S ∪
      (findable matrix val ⟨R.rowL, R.rowL + d, R.colL + (d + 1), R.colR⟩ ∪
        findable matrix val ⟨R.rowL + (d + 1), R.rowR, R.colL, R.colL + d⟩) := by
  ext p
  rw [hd.mem_findable hs hR, Set.mem_union, Set.mem_union, hS]
  rw [← Int.add_assoc, ← Int.add_assoc]
  constructor
  · rintro ⟨R', hpart, hp⟩
    cases hpart with
    | lowerRight h0 hwide hrows hsecond =>
      obtain rfl : d = 0 := hd.wide hwide
      rw [Rect.Wide] at hwide
      exact .inl ⟨⟨by omega, by omega, hsecond⟩, by simpa using hp⟩
    | upperRight he =>
      rw [he.eq hd] at hp
      exact .inr (.inl hp)
    | lowerLeft he =>
      rw [he.eq hd] at hp
      exact .inr (.inr hp)
  · rintro (⟨⟨hrow, hcol, hsecond⟩, hp⟩ | hp | hp)
    · by_cases hwide : R.Wide
      · obtain rfl : d = 0 := hd.wide hwide
        exact ⟨_, .lowerRight hd hwide (by omega) hsecond, by simpa using hp⟩
      · have := hd.above hwide (d + 1) (by omega) (by omega)
        omega
    · exact ⟨_, .upperRight hd, hp⟩
    · exact ⟨_, .lowerLeft hd, hp⟩

theorem Splits.findable_eq_of_not (hs : Sorted matrix) (hR : Inside M N R)
    (hd : Splits matrix val R d) (hlower : ¬ (R.rowL + (d + 1) ≤ R.rowR ∧
      R.colL + (d + 1) ≤ R.colR ∧ diagonal matrix R (d + 1) < val)) :
    findable matrix val R = findable matrix val ⟨R.rowL, R.rowL + d, R.colL + (d + 1), R.colR⟩ ∪
      findable matrix val ⟨R.rowL + (d + 1), R.rowR, R.colL, R.colL + d⟩ := by
  have hall := hd.findable_eq hs hR (S := ∅) fun p => iff_of_false id fun h => hlower h.1
  rwa [Set.empty_union] at hall

theorem Found.splits (hd : Found matrix val R d) (hlt : diagonal matrix R d < val) :
    Splits matrix val R d := by
  rcases hd.entry with heq | ⟨rfl, hgt⟩ | hsplit
  · omega
  · omega
  · exact hsplit

theorem Found.above_first (hd : Found matrix val R d) (hgt : val < diagonal matrix R d) :
    d = 0 ∧ val < diagonal matrix R 0 := by
  rcases hd.entry with heq | hfirst | hsplit
  · omega
  · exact hfirst
  · exact absurd hsplit.below hgt.not_gt

/-- Where the first entry is above the value there is nothing to be found, in any part. -/
theorem Sorted.findable_first (hs : Sorted matrix) (hR : Inside M N R) (hrows : R.rowL ≤ R.rowR)
    (hcols : R.colL ≤ R.colR) (hfirst : val < diagonal matrix R 0) :
    findable matrix val R = findable matrix val ⟨R.rowL, R.rowL + 0, R.colL, R.colL + 0⟩ ∪
      (findable matrix val ⟨R.rowL, R.rowL + 0, R.colL + (0 + 1), R.colR⟩ ∪
        findable matrix val ⟨R.rowL + (0 + 1), R.rowR, R.colL, R.colL + 0⟩) := by
  obtain ⟨h1, h2, h3, h4⟩ := hR
  have hnone {a b c e : ℤ} (ha : R.rowL ≤ a) (hb : b < M) (hc : R.colL ≤ c) (he : e < N) :
      findable matrix val ⟨a, b, c, e⟩ = ∅ := by
    refine findable_eq_empty fun p hp => ?_
    rw [Rect.has_mk] at hp
    have hle : diagonal matrix R 0 ≤ cell matrix p.1 p.2 :=
      hs.cell_le (by omega) (by omega) (by omega) (by omega) (by omega) (by omega)
    omega
  have hwhole : findable matrix val R = ∅ := hnone le_rfl h2 le_rfl h4
  rw [hwhole, hnone le_rfl (by omega) le_rfl (by omega), hnone le_rfl (by omega) (by omega) h4,
    hnone (by omega) h2 le_rfl (by omega), Set.union_self, Set.union_self]

/-- What is found on the diagonal is not overlooked. -/
theorem Found.mem_findable (hs : Sorted matrix) (hR : Inside M N R) (hd : Found matrix val R d)
    (heq : diagonal matrix R d = val) : (R.rowL + d, R.colL + d) ∈ findable matrix val R := by
  have hlow := hd.low
  have hrow := hd.row
  have hcol := hd.col
  have hsplit {e : ℤ} (he : Splits matrix val R e) : False := by
    by_cases hwide : R.Wide
    · have hbelow := he.below
      rw [he.wide hwide, ← hd.wide hwide] at hbelow
      omega
    · by_cases hed : e < d
      · have := he.above hwide d hed (by omega)
        omega
      · have hle := hs.diagonal_le hR hlow (by omega : d ≤ e) he.row he.col
        have := he.below
        omega
  refine ⟨⟨⟨by omega, hrow⟩, by omega, hcol⟩, heq, ?_⟩
  rintro (⟨hwide, -, hfirst, -⟩ | ⟨hpart, -, -⟩)
  · rw [← hd.wide hwide] at hfirst
    omega
  · cases hpart with
    | lowerRight he => exact hsplit he
    | upperRight he => exact hsplit he
    | lowerLeft he => exact hsplit he

/-- `res` is one of the places, or there are none. -/
def Picks (S : Set (ℤ × ℤ)) (res : ℤ × ℤ) : Prop :=
  (res.1 ≠ -1 ∧ res ∈ S) ∨ (res = (-1, -1) ∧ S = ∅)

/-- A search is followed by the next one where it finds nothing. -/
theorem Picks.next {S T : Set (ℤ × ℤ)} {first next : Option (ℤ × ℤ)}
    (hfirst : ∃ r, first = some r ∧ Picks S r) (hnext : ∃ r, next = some r ∧ Picks T r) :
    ∃ r, (first.bind fun res => if res.1 = -1 then next else some res) = some r ∧
      Picks (S ∪ T) r := by
  obtain ⟨res, rfl, ⟨hres, hmem⟩ | ⟨rfl, rfl⟩⟩ := hfirst
  · exact ⟨res, if_neg hres, .inl ⟨hres, .inl hmem⟩⟩
  · rw [Set.empty_union]
    exact hnext

/-- The three searches one after the other. -/
theorem Picks.chain {S T U : Set (ℤ × ℤ)} {first next last : Option (ℤ × ℤ)}
    (hfirst : ∃ r, first = some r ∧ Picks S r) (hnext : ∃ r, next = some r ∧ Picks T r)
    (hlast : ∃ r, last = some r ∧ Picks U r) :
    ∃ r, (first.bind fun res =>
      if res.1 = -1 then next.bind fun res => if res.1 = -1 then last else some res
      else if res.1 = -1 then last else some res) = some r ∧ Picks (S ∪ (T ∪ U)) r := by
  have hsame : (fun res : ℤ × ℤ =>
      if res.1 = -1 then next.bind fun res => if res.1 = -1 then last else some res
      else if res.1 = -1 then last else some res) =
      fun res => if res.1 = -1 then next.bind fun res => if res.1 = -1 then last else some res
        else some res := by
    funext res
    by_cases hres : res.1 = -1
    · rw [if_pos hres, if_pos hres]
    · rw [if_neg hres, if_neg hres, if_neg hres]
  rw [hsame]
  exact Picks.next hfirst (Picks.next hnext hlast)

theorem picks_single (hs : Sorted matrix) (hR : Inside M N R) (hrow : R.rowL = R.rowR)
    (hcol : R.colL = R.colR) : Picks (findable matrix val R)
      (if cell matrix R.rowL R.colL = val then (R.rowL, R.colL) else (-1, -1)) := by
  split_ifs with heq
  · have hentry : diagonal matrix R 0 = val := by
      rw [diagonal, Int.add_zero, Int.add_zero, heq]
    have hfound : Found matrix val R 0 := ⟨le_rfl, by omega, by omega, fun _ => rfl, .inl hentry⟩
    have hmem := hfound.mem_findable hs hR hentry
    rw [Int.add_zero, Int.add_zero] at hmem
    have hlow := hR.rowL
    exact .inl ⟨by simp only; omega, hmem⟩
  · refine .inr ⟨rfl, findable_eq_empty fun p hp hval => heq ?_⟩
    rw [Rect.Has] at hp
    rw [← hval, show p.1 = R.rowL by omega, show p.2 = R.colL by omega]

theorem binSearch2dAux_spec (val : ℤ) (hs : Sorted matrix) (hfuel : N < fuel) (hR : Inside M N R)
    (hpos : 0 < depth) (hdepth : R.rowR - R.rowL + 1 + (R.colR - R.colL + 1) ≤ depth) :
    ∃ res, binSearch2dAux fuel matrix val depth R.rowL R.rowR R.colL R.colR = some res ∧
      Picks (findable matrix val R) res := by
  induction depth generalizing R with
  | zero => omega
  | succ depth ih =>
    have hin := hR
    obtain ⟨h1, h2, h3, h4⟩ := hin
    rw [binSearch2dAux]
    by_cases hempty : R.rowL > R.rowR ∨ R.colL > R.colR
    · refine ⟨_, if_pos hempty, .inr ⟨rfl, findable_eq_empty fun p hp => ?_⟩⟩
      rw [Rect.Has] at hp
      omega
    rw [if_neg hempty]
    by_cases hsingle : R.rowL = R.rowR ∧ R.colL = R.colR
    · rw [if_pos hsingle, read_eq h1 (by omega) h3 (by omega)]
      simp only [Option.bind_eq_bind, Option.bind_some, Option.pure_def]
      rw [← apply_ite some]
      exact ⟨_, rfl, picks_single hs hR hsingle.1 hsingle.2⟩
    · rw [if_neg hsingle]
      obtain ⟨d, hd, hfound⟩ := binSearchDiagonal_spec val hs hR (by omega) (by omega) hfuel
      have hlow := hfound.low
      have hrow := hfound.row
      have hcol := hfound.col
      have hread : read matrix (R.rowL + d) (R.colL + d) = some (diagonal matrix R d) :=
        read_eq (by omega) (by omega) (by omega) (by omega)
      have hrec {a b c e : ℤ} (ha : 0 ≤ a) (hb : b < M) (hc : 0 ≤ c) (he : e < N)
          (hsize : b - a + 1 + (e - c + 1) ≤ depth) :
          ∃ res, binSearch2dAux fuel matrix val depth a b c e = some res ∧
            Picks (findable matrix val ⟨a, b, c, e⟩) res :=
        @ih ⟨a, b, c, e⟩ ⟨ha, hb, hc, he⟩ (by omega) hsize
      have hright := @hrec R.rowL (R.rowL + d) (R.colL + (d + 1)) R.colR (by omega) (by omega)
        (by omega) (by omega) (by omega)
      have hleft := @hrec (R.rowL + (d + 1)) R.rowR R.colL (R.colL + d) (by omega) (by omega)
        (by omega) (by omega) (by omega)
      simp only [hd, hread, Option.bind_eq_bind, Option.bind_some, Option.pure_def]
      by_cases heq : diagonal matrix R d = val
      · rw [if_pos heq]
        exact ⟨_, rfl, .inl ⟨by omega, hfound.mem_findable hs hR heq⟩⟩
      rw [if_neg heq]
      by_cases hlt : val < diagonal matrix R d
      · obtain ⟨rfl, hfirst⟩ := hfound.above_first hlt
        have hone := @hrec R.rowL (R.rowL + 0) R.colL (R.colL + 0) h1 (by omega) h3 (by omega)
          (by omega)
        rw [if_pos hlt, hs.findable_first hR (by omega) (by omega) hfirst]
        exact Picks.chain hone hright hleft
      rw [if_neg hlt]
      have hsplit := hfound.splits (by omega)
      by_cases hnext : R.rowL + (d + 1) ≤ R.rowR ∧ R.colL + (d + 1) ≤ R.colR
      · have hread' : read matrix (R.rowL + (d + 1)) (R.colL + (d + 1)) =
            some (diagonal matrix R (d + 1)) := read_eq (by omega) (by omega) (by omega) (by omega)
        rw [if_pos hnext, hread', Option.bind_some]
        by_cases hgt : val > diagonal matrix R (d + 1)
        · have hlower := @hrec (R.rowL + (d + 1)) R.rowR (R.colL + (d + 1)) R.colR (by omega) h2
            (by omega) h4 (by omega)
          rw [if_pos hgt, hsplit.findable_eq hs hR fun p =>
            (and_iff_right ⟨hnext.1, hnext.2, hgt⟩).symm]
          exact Picks.chain hlower hright hleft
        · rw [if_neg hgt, hsplit.findable_eq_of_not hs hR fun h => hgt h.2.2]
          exact Picks.next hright hleft
      · rw [if_neg hnext, hsplit.findable_eq_of_not hs hR fun h => hnext ⟨h.1, h.2.1⟩]
        exact Picks.next hright hleft

/-! ## The whole matrix -/

def place (i : Fin M) (j : Fin N) : ℤ × ℤ := ((i : ℕ), (j : ℕ))

/-- `res` has a cell with the value if there is one, and is `(-1, -1)` otherwise. -/
def Finds (matrix : Fin M → Fin N → ℤ) (val : ℤ) (res : Option (ℤ × ℤ)) : Prop :=
  if ∃ i j, matrix i j = val then
    ∃ i j, matrix i j = val ∧ res = some (place i j)
  else res = some (-1, -1)

instance (matrix : Fin M → Fin N → ℤ) (val : ℤ) (res : Option (ℤ × ℤ)) :
    Decidable (Finds matrix val res) :=
  inferInstanceAs (Decidable (if ∃ i j, matrix i j = val then
    ∃ i j, matrix i j = val ∧ res = some (place i j) else res = some (-1, -1)))

/-- What `bin_search_2d` is called with. -/
def whole (M N : ℕ) : Rect := ⟨0, M - 1, 0, N - 1⟩

theorem exists_of_mem_findable {p : ℤ × ℤ} (hp : p ∈ findable matrix val (whole M N)) :
    ∃ (i : Fin M) (j : Fin N), p = place i j ∧ matrix i j = val := by
  obtain ⟨hin, hval, -⟩ := hp
  rw [whole, Rect.has_mk] at hin
  obtain ⟨i, hi⟩ := Int.eq_ofNat_of_zero_le hin.1.1
  obtain ⟨j, hj⟩ := Int.eq_ofNat_of_zero_le hin.2.1
  have hcell := cell_natCast matrix ⟨i, by omega⟩ ⟨j, by omega⟩
  refine ⟨⟨i, by omega⟩, ⟨j, by omega⟩, Prod.ext hi hj, ?_⟩
  rw [← hcell, ← hval, hi, hj]

theorem mem_findable_whole (i : Fin M) (j : Fin N) :
    place i j ∈ findable matrix val (whole M N) ↔
      matrix i j = val ∧ ¬ Overlooked matrix val (place i j) (whole M N) := by
  have hin : (whole M N).Has (place i j) := Rect.has_mk.2 (by simp only [place]; omega)
  rw [← cell_natCast matrix i j]
  exact and_iff_right hin

theorem binSearch2d_finds_iff (hM : 0 < M) (hN : 0 < N) (hs : Sorted matrix) (hfuel : N < fuel)
    (hdepth : M + N ≤ depth) : Finds matrix val (binSearch2d fuel depth matrix val) ↔
      (∀ i j, matrix i j ≠ val) ∨ ∃ (i : Fin M) (j : Fin N), matrix i j = val ∧
        ¬ Overlooked matrix val (place i j) (whole M N) := by
  have hin : Inside M N (whole M N) :=
    ⟨le_rfl, Int.sub_one_lt_of_le le_rfl, le_rfl, Int.sub_one_lt_of_le le_rfl⟩
  obtain ⟨res, hres, hpicks⟩ := binSearch2dAux_spec val hs hfuel hin (by omega : 0 < depth)
    (by simp only [whole]; omega)
  have hfinds : binSearch2d fuel depth matrix val = some res := hres
  rw [hfinds]
  rcases hpicks with ⟨hne, hmem⟩ | ⟨rfl, hempty⟩
  · obtain ⟨i, j, rfl, hij⟩ := exists_of_mem_findable hmem
    rw [Finds, if_pos ⟨i, j, hij⟩]
    exact iff_of_true ⟨i, j, hij, rfl⟩ (.inr ⟨i, j, (mem_findable_whole i j).1 hmem⟩)
  · have hnone (i : Fin M) (j : Fin N) := (mem_findable_whole i j).not.1
      (Set.eq_empty_iff_forall_notMem.1 hempty _)
    by_cases hval : ∃ i j, matrix i j = val
    · rw [Finds, if_pos hval]
      refine iff_of_false ?_ ?_
      · rintro ⟨i, j, -, hres⟩
        have hfst : -1 = ((i : ℕ) : ℤ) := congrArg Prod.fst (Option.some.inj hres)
        omega
      · rintro (hall | ⟨i, j, hij⟩)
        · obtain ⟨i, j, hij⟩ := hval
          exact hall i j hij
        · exact hnone i j hij
    · rw [Finds, if_neg hval]
      exact iff_of_true rfl (.inl fun i j hij => hval ⟨i, j, hij⟩)

theorem sorted_twoThree : Sorted ![![1, 2, 3], ![4, 5, 6]] :=
  ⟨by decide, by decide⟩

theorem binSearch2d_finds_iff_six :
    (0 < 2 ∧ 0 < 3 ∧ Sorted ![![1, 2, 3], ![4, 5, 6]] ∧ 3 < 4 ∧ 2 + 3 ≤ 5) ∧
      (Finds ![![1, 2, 3], ![4, 5, 6]] 6 (binSearch2d 4 5 ![![1, 2, 3], ![4, 5, 6]] 6) ↔
        (∀ i j, ![![1, 2, 3], ![4, 5, 6]] i j ≠ (6 : ℤ)) ∨ ∃ (i : Fin 2) (j : Fin 3),
          ![![1, 2, 3], ![4, 5, 6]] i j = (6 : ℤ) ∧
            ¬ Overlooked ![![1, 2, 3], ![4, 5, 6]] 6 (place i j) (whole 2 3)) :=
  ⟨⟨by decide, by decide, sorted_twoThree, by decide, by decide⟩,
    binSearch2d_finds_iff (by decide) (by decide) sorted_twoThree (by decide) (by decide)⟩

/-- `5` is at the second place of the diagonal. -/
theorem binSearch2d_overlooks : Sorted ![![1, 2, 3], ![4, 5, 6]] ∧
    (![![1, 2, 3], ![4, 5, 6]] : Fin 2 → Fin 3 → ℤ) 1 1 = 5 ∧
    binSearch2d 4 5 ![![1, 2, 3], ![4, 5, 6]] 5 = some (-1, -1) ∧
    ¬ Finds ![![1, 2, 3], ![4, 5, 6]] 5 (binSearch2d 4 5 ![![1, 2, 3], ![4, 5, 6]] 5) :=
  ⟨sorted_twoThree, rfl, by decide, by decide⟩

end InterviewQuestions.BinSearch2d

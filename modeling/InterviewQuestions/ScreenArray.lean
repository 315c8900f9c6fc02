import InterviewQuestions.Library.Arithmetic
import InterviewQuestions.Library.Bits

/-! `bit_manipulation/screen_array/solution.c`. There is no result where an index is out of range or
an `int` overflows. -/
namespace InterviewQuestions.ScreenArray

open Library Library.Arithmetic Library.Bitmap

/-- `screen[row+i]` is replaced. -/
def store (row i : ℤ) (f : UInt8 → UInt8) (screen : List UInt8) : Option (List UInt8) := do
  let index ← int (row + i)
  if 0 ≤ index then
    let b ← screen[index.toNat]?
    return screen.set index.toNat (f b)
  else none

/-- `for (; i <= last; i++) screen[row+i] = UCHAR_MAX;`, for `n` rounds. -/
def fill (row : ℤ) : ℕ → ℤ → List UInt8 → Option (List UInt8)
  | 0, _, screen => some screen
  | n + 1, i, screen => do fill row n (i + 1) (← store row i (fun _ => 255) screen)

/-- The values of `i` in `for (i = first; i >= last; i--)` and `for (i = first; i <= last; i++)`. -/
def down (first last : ℤ) : List ℕ :=
  (List.range (first + 1 - last).toNat).map fun (k : ℕ) => (first - k).toNat

def up (first last : ℤ) : List ℕ :=
  (List.range (last + 1 - first).toNat).map fun (k : ℕ) => (first + k).toNat

/-- `screen[row+byte] |= 1 << i;` for the values of `i`. -/
def setBits (row byte : ℤ) (shifts : List ℕ) (screen : List UInt8) : Option (List UInt8) :=
  shifts.foldlM (fun screen i => store row byte (withBit i) screen) screen

/-- What cannot leave the range of `int` is not checked for it. -/
def drawHorizontalLine (screen : List UInt8) (width x1 x2 y : ℤ) : Option (List UInt8) := do
  let cols := width.tdiv 8
  let row ← int (y * cols)
  let firstOffset := x1.tmod 8
  let firstByte := x1.tdiv 8
  let firstFullByte := if firstOffset ≠ 0 then firstByte + 1 else firstByte
  let lastOffset := x2.tmod 8
  let lastByte := x2.tdiv 8
  let lastFullByte := if lastOffset ≠ 7 then lastByte - 1 else lastByte
  let screen ← fill row (lastFullByte + 1 - firstFullByte).toNat firstFullByte screen
  if firstByte ≠ lastByte then
    let screen ← setBits row firstByte (down (7 - firstOffset) 0) screen
    setBits row lastByte (up (7 - lastOffset) 7) screen
  else
    let lastShift := 7 - lastOffset
    setBits row firstByte (down (7 - firstOffset) lastShift) screen

variable {screen screen' : List UInt8} {row byte i n k : ℕ} {shifts : List ℕ} {f : UInt8 → UInt8}

theorem int_natCast {n : ℕ} (hn : n < 2 ^ 31) : int n = some (n : ℤ) :=
  if_pos (by omega)

theorem int_overflow {n : ℕ} (hn : 2 ^ 31 ≤ n) : int n = none :=
  if_neg (by omega)

theorem store_eq (hint : row + i < 2 ^ 31) (hi : row + i < screen.length) :
    store row i f screen = some (screen.set (row + i) (f (screen.getD (row + i) 0))) := by
  rw [store, ← Nat.cast_add, int_natCast hint]
  simp only [Option.bind_eq_bind, Option.bind_some]
  rw [if_pos (Int.natCast_nonneg _), Int.toNat_natCast, List.getElem?_eq_getElem hi,
    List.getD_eq_getElem _ _ hi]
  rfl

theorem store_overflow (hint : 2 ^ 31 ≤ row + i) : store row i f screen = none := by
  rw [store, ← Nat.cast_add, int_overflow hint]
  rfl

theorem fill_spec (hint : row + (i + n) ≤ 2 ^ 31) (hi : row + (i + n) ≤ screen.length) :
    ∃ screen', fill row n i screen = some screen' ∧
      Sets (fun p => row + i ≤ p / 8 ∧ p / 8 < row + (i + n)) screen screen' := by
  induction n generalizing i screen with
  | zero => exact ⟨screen, rfl, Sets.refl (fun p h => by omega) screen⟩
  | succ n ih =>
    have hstore : store row i (fun _ => 255) screen = some (screen.set (row + i) 255) :=
      store_eq (by omega) (by omega)
    have hlen : row + (i + 1 + n) ≤ (screen.set (row + i) 255).length := by
      rw [List.length_set]
      omega
    obtain ⟨screen', hrest, hsets⟩ := ih (i := i + 1) (by omega) hlen
    refine ⟨screen', ?_, ?_⟩
    · rw [fill, hstore]
      exact hrest
    · exact ((Sets.full (by omega)).trans hsets).congr fun p => by omega

theorem setBits_spec (shifts : List ℕ) (hint : row + byte < 2 ^ 31)
    (hi : row + byte < screen.length) :
    ∃ screen', setBits row byte shifts screen = some screen' ∧
      Sets (fun p => p / 8 = row + byte ∧ 7 - p % 8 ∈ shifts) screen screen' := by
  induction shifts generalizing screen with
  | nil => exact ⟨screen, rfl, Sets.refl (fun p h => List.not_mem_nil h.2) screen⟩
  | cons k shifts ih =>
    have hstore := store_eq (f := withBit k) hint hi
    have hlen : row + byte <
        (screen.set (row + byte) (withBit k (screen.getD (row + byte) 0))).length := by
      rwa [List.length_set]
    obtain ⟨screen', hrest, hsets⟩ := ih hlen
    refine ⟨screen', ?_, ?_⟩
    · rw [setBits, List.foldlM_cons, hstore]
      exact hrest
    · refine ((Sets.or hi k).trans hsets).congr fun p => ?_
      rw [List.mem_cons, ← and_or_left]

theorem setBits_overflow (hint : 2 ^ 31 ≤ row + byte) (hne : shifts ≠ []) :
    setBits row byte shifts screen = none := by
  obtain ⟨k, shifts, rfl⟩ := List.exists_cons_of_ne_nil hne
  rw [setBits, List.foldlM_cons, store_overflow hint]
  rfl

theorem mem_down {a b : ℕ} : k ∈ down a b ↔ b ≤ k ∧ k ≤ a := by
  rw [down, List.mem_map]
  constructor
  · rintro ⟨j, hj, rfl⟩
    have hlt := List.mem_range.mp hj
    omega
  · rintro ⟨hb, ha⟩
    exact ⟨a - k, List.mem_range.mpr (by omega), by omega⟩

theorem mem_up {a b : ℕ} : k ∈ up a b ↔ a ≤ k ∧ k ≤ b := by
  rw [up, List.mem_map]
  constructor
  · rintro ⟨j, hj, rfl⟩
    have hlt := List.mem_range.mp hj
    omega
  · rintro ⟨ha, hb⟩
    exact ⟨k - a, List.mem_range.mpr (by omega), by omega⟩

/-! ## The line -/

variable {width x1 x2 y : ℕ}

/-- The function on numbers that are not negative. -/
theorem drawHorizontalLine_natCast (screen : List UInt8) (width x1 x2 y : ℕ) :
    drawHorizontalLine screen width x1 x2 y =
      (int ((y * (width / 8) : ℕ) : ℤ)).bind fun row =>
        (fill row (((if x2 % 8 ≠ 7 then ((x2 / 8 : ℕ) : ℤ) - 1 else (x2 / 8 : ℕ)) + 1 -
          if x1 % 8 ≠ 0 then ((x1 / 8 : ℕ) : ℤ) + 1 else (x1 / 8 : ℕ)).toNat)
          (if x1 % 8 ≠ 0 then ((x1 / 8 : ℕ) : ℤ) + 1 else (x1 / 8 : ℕ)) screen).bind fun screen =>
          if x1 / 8 ≠ x2 / 8 then
            (setBits row (x1 / 8 : ℕ) (down (7 - x1 % 8 : ℕ) (0 : ℕ)) screen).bind fun screen =>
              setBits row (x2 / 8 : ℕ) (up (7 - x2 % 8 : ℕ) (7 : ℕ)) screen
          else setBits row (x1 / 8 : ℕ) (down (7 - x1 % 8 : ℕ) (7 - x2 % 8 : ℕ)) screen := by
  have hdiv (n : ℕ) : (n : ℤ).tdiv 8 = (n / 8 : ℕ) := rfl
  have hmod (n : ℕ) : (n : ℤ).tmod 8 = (n % 8 : ℕ) := rfl
  have hsub (n : ℕ) : (7 : ℤ) - (n % 8 : ℕ) = (7 - n % 8 : ℕ) := by omega
  have hzero (n : ℕ) : ((n % 8 : ℕ) : ℤ) ≠ 0 ↔ n % 8 ≠ 0 := by omega
  have hseven (n : ℕ) : ((n % 8 : ℕ) : ℤ) ≠ 7 ↔ n % 8 ≠ 7 := by omega
  have hbyte : ((x1 / 8 : ℕ) : ℤ) ≠ (x2 / 8 : ℕ) ↔ x1 / 8 ≠ x2 / 8 := by omega
  rw [drawHorizontalLine, hdiv, hdiv, hdiv, hmod, hmod, ← Nat.cast_mul]
  simp only [hsub, hzero, hseven, hbyte]
  rfl

/-- The full bytes between the ends, if there are any. -/
theorem fill_between (hle : x1 ≤ x2) (hint : row + x2 / 8 < 2 ^ 31)
    (hlen : row + x2 / 8 < screen.length) :
    ∃ screen', fill row (((if x2 % 8 ≠ 7 then ((x2 / 8 : ℕ) : ℤ) - 1 else (x2 / 8 : ℕ)) + 1 -
          if x1 % 8 ≠ 0 then ((x1 / 8 : ℕ) : ℤ) + 1 else (x1 / 8 : ℕ)).toNat)
          (if x1 % 8 ≠ 0 then ((x1 / 8 : ℕ) : ℤ) + 1 else (x1 / 8 : ℕ)) screen = some screen' ∧
      Sets (fun p => 8 * row + x1 ≤ 8 * (p / 8) ∧ 8 * (p / 8) + 7 ≤ 8 * row + x2)
        screen screen' := by
  have hfirst : (if x1 % 8 ≠ 0 then ((x1 / 8 : ℕ) : ℤ) + 1 else (x1 / 8 : ℕ)) =
      ((x1 + 7) / 8 : ℕ) := by
    split_ifs <;> omega
  have hrounds : ((if x2 % 8 ≠ 7 then ((x2 / 8 : ℕ) : ℤ) - 1 else (x2 / 8 : ℕ)) + 1 -
      ((x1 + 7) / 8 : ℕ)).toNat = (x2 + 1) / 8 - (x1 + 7) / 8 := by
    split_ifs <;> omega
  have hint' : row + ((x1 + 7) / 8 + ((x2 + 1) / 8 - (x1 + 7) / 8)) ≤ 2 ^ 31 := by omega
  have hlen' : row + ((x1 + 7) / 8 + ((x2 + 1) / 8 - (x1 + 7) / 8)) ≤ screen.length := by omega
  obtain ⟨screen', hfill, hsets⟩ := fill_spec hint' hlen'
  rw [hfirst, hrounds]
  exact ⟨screen', hfill, hsets.congr fun p => by omega⟩

/-- Exactly the bits of the line are set. -/
theorem drawHorizontalLine_spec (hle : x1 ≤ x2) (hint : y * (width / 8) + x2 / 8 < 2 ^ 31)
    (hlen : y * (width / 8) + x2 / 8 < screen.length) :
    ∃ screen', drawHorizontalLine screen width x1 x2 y = some screen' ∧
      Sets (fun p => 8 * (y * (width / 8)) + x1 ≤ p ∧ p ≤ 8 * (y * (width / 8)) + x2)
        screen screen' := by
  have hrow : int ((y * (width / 8) : ℕ) : ℤ) = some ((y * (width / 8) : ℕ) : ℤ) :=
    int_natCast (by omega)
  rw [drawHorizontalLine_natCast, hrow]
  generalize y * (width / 8) = row at hint hlen
  obtain ⟨filled, hfill, hsets⟩ := fill_between hle hint hlen
  have hint₁ : row + x1 / 8 < 2 ^ 31 := by omega
  have hlen₁ : row + x1 / 8 < filled.length := by
    rw [hsets.length_eq]
    omega
  simp only [Option.bind_some, hfill]
  by_cases hbytes : x1 / 8 = x2 / 8
  · obtain ⟨screen', hbits, hsets'⟩ :=
      setBits_spec (down (7 - x1 % 8 : ℕ) (7 - x2 % 8 : ℕ)) hint₁ hlen₁
    refine ⟨screen', ?_, (hsets.trans hsets').congr fun p => ?_⟩
    · rw [if_neg (not_not_intro hbytes)]
      exact hbits
    · rw [mem_down]
      omega
  · obtain ⟨first, hbits, hsets'⟩ :=
      setBits_spec (down (7 - x1 % 8 : ℕ) (0 : ℕ)) hint₁ hlen₁
    have hlen₂ : row + x2 / 8 < first.length := by
      rwa [hsets'.length_eq, hsets.length_eq]
    obtain ⟨screen', hbits', hsets''⟩ :=
      setBits_spec (up (7 - x2 % 8 : ℕ) (7 : ℕ)) hint hlen₂
    refine ⟨screen', ?_, ((hsets.trans hsets').trans hsets'').congr fun p => ?_⟩
    · rw [if_pos hbytes, hbits]
      exact hbits'
    · rw [mem_down, mem_up]
      omega

/-- Behind the range of `int` there is no index. -/
theorem drawHorizontalLine_overflow (hle : x1 ≤ x2)
    (hint : 2 ^ 31 ≤ y * (width / 8) + x2 / 8) :
    drawHorizontalLine screen width x1 x2 y = none := by
  rw [drawHorizontalLine_natCast]
  by_cases hrow : y * (width / 8) < 2 ^ 31
  · rw [int_natCast hrow]
    generalize y * (width / 8) = row at hint hrow
    rw [Option.bind_some, Option.bind_eq_none_iff]
    intro filled _
    by_cases hbytes : x1 / 8 = x2 / 8
    · have hne : down (7 - x1 % 8 : ℕ) (7 - x2 % 8 : ℕ) ≠ [] :=
        List.ne_nil_of_mem (mem_down.mpr ⟨by omega, le_rfl⟩)
      rw [if_neg (not_not_intro hbytes)]
      exact setBits_overflow (by omega) hne
    · have hne : up (7 - x2 % 8 : ℕ) (7 : ℕ) ≠ [] :=
        List.ne_nil_of_mem (mem_up.mpr ⟨by omega, le_rfl⟩)
      rw [if_pos hbytes, Option.bind_eq_none_iff]
      exact fun first _ => setBits_overflow hint hne
  · rw [int_overflow (Nat.not_lt.mp hrow)]
    rfl

/-! ## The pixels -/

/-- The pixel `x` of a row; bit 7 of each byte is its leftmost one. -/
def pixel (screen : List UInt8) (width x y : ℕ) : Bool :=
  (screen.getD (y * (width / 8) + x / 8) 0).toNat.testBit (7 - x % 8)

theorem pixel_eq_bit (screen : List UInt8) (width x y : ℕ) :
    pixel screen width x y = bit screen (8 * (y * (width / 8)) + x) := by
  rw [pixel, bit, Nat.mul_add_div (by decide), Nat.mul_add_mod]

/-- The pixels `x1` to `x2` of the row `y` are set, and all others are what they were. -/
def Draws (screen : List UInt8) (width x1 x2 y : ℕ) (res : Option (List UInt8)) : Prop :=
  ∃ screen', res = some screen' ∧ screen'.length = screen.length ∧
    ∀ x r, x < width → r * (width / 8) + x / 8 < screen.length →
      (pixel screen' width x r = true ↔
        pixel screen width x r = true ∨ r = y ∧ x1 ≤ x ∧ x ≤ x2)

/-- A position in the line is in the row of the line. -/
theorem position_iff {cols r x : ℕ} (hx : x < 8 * cols) (hx2 : x2 < 8 * cols) :
    8 * (y * cols) + x1 ≤ 8 * (r * cols) + x ∧ 8 * (r * cols) + x ≤ 8 * (y * cols) + x2 ↔
      r = y ∧ x1 ≤ x ∧ x ≤ x2 := by
  rcases Nat.lt_trichotomy r y with hlt | rfl | hgt
  · have hmul : (r + 1) * cols ≤ y * cols := Nat.mul_le_mul_right cols hlt
    rw [Nat.succ_mul] at hmul
    omega
  · omega
  · have hmul : (y + 1) * cols ≤ r * cols := Nat.mul_le_mul_right cols hgt
    rw [Nat.succ_mul] at hmul
    omega

/-- The line is drawn as long as the number of its last byte is an `int`. -/
theorem draws_iff (hdvd : 8 ∣ width) (hle : x1 ≤ x2) (hx2 : x2 < width)
    (hrow : (y + 1) * (width / 8) ≤ screen.length) :
    Draws screen width x1 x2 y (drawHorizontalLine screen width x1 x2 y) ↔
      y * (width / 8) + x2 / 8 < 2 ^ 31 := by
  have hcols : 8 * (width / 8) = width := Nat.mul_div_cancel' hdvd
  have hlast : x2 / 8 < width / 8 := by omega
  rw [Nat.succ_mul] at hrow
  by_cases hint : y * (width / 8) + x2 / 8 < 2 ^ 31
  · refine iff_of_true ?_ hint
    have hlen : y * (width / 8) + x2 / 8 < screen.length := by omega
    obtain ⟨screen', hdraw, hsets⟩ := drawHorizontalLine_spec hle hint hlen
    refine ⟨screen', hdraw, hsets.length_eq, fun x r hx hr => ?_⟩
    have hpos : 8 * (r * (width / 8)) + x < 8 * screen.length := by omega
    have hx' : x < 8 * (width / 8) := by omega
    have hx2' : x2 < 8 * (width / 8) := by omega
    rw [pixel_eq_bit, pixel_eq_bit, hsets.bit_iff _ hpos]
    exact or_congr_right (position_iff hx' hx2')
  · refine iff_of_false ?_ hint
    rw [drawHorizontalLine_overflow hle (Nat.not_lt.mp hint)]
    rintro ⟨screen', hdraw, -⟩
    cases hdraw

theorem draws_iff_two : Draws [0, 0, 0, 0] 16 3 12 1 (drawHorizontalLine [0, 0, 0, 0] 16 3 12 1) :=
  (draws_iff (by decide) (by decide) (by decide) (by decide)).mpr (by decide)

/-- The last of ten rows of `2 ^ 28 - 1` bytes each. -/
theorem not_draws_large :
    (9 + 1) * (2147483640 / 8) ≤ (List.replicate 2684354550 (0 : UInt8)).length ∧
      ¬ Draws (List.replicate 2684354550 0) 2147483640 0 0 9
        (drawHorizontalLine (List.replicate 2684354550 0) (2147483640 : ℕ) (0 : ℕ) (0 : ℕ)
          (9 : ℕ)) := by
  refine ⟨?_, ?_⟩
  · rw [List.length_replicate]
  · rw [drawHorizontalLine_overflow le_rfl (by norm_num)]
    rintro ⟨screen', hdraw, -⟩
    cases hdraw

end InterviewQuestions.ScreenArray

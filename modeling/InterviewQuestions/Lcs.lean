import InterviewQuestions.Library.CString
import InterviewQuestions.Library.CommonSubsequence
import InterviewQuestions.Library.CountingLoop
import Mathlib.Logic.Function.Basic

/-! `LCS/lcs.c`. There is no result where an assertion fails, and none where a character is read
behind the end of its string. -/
namespace InterviewQuestions.Lcs

open Library

def maxStrSz : ℕ := 1024

abbrev Table := ℕ → ℕ → ℕ

abbrev Buffer := ℕ → UInt8

/-- `table[i][j] = value;` -/
def Table.set (table : Table) (i j value : ℕ) : Table :=
  Function.update table i (Function.update (table i) j value)

/-- There is no result where the fuel does not last for the loop. -/
def reverseStr (fuel : ℕ) (str : Buffer) (strSz : ℕ) : Option Buffer :=
  if strSz ≤ 1 then some str else loop fuel str 0 (strSz - 1)
where
  loop : ℕ → Buffer → ℕ → ℕ → Option Buffer
    | 0, _, _, _ => none
    | fuel + 1, str, i, j =>
        if i < j then
          loop fuel (Function.update (Function.update str i (str j)) j (str i)) (i + 1) (j - 1)
        else some str

/-- The loop of `build_lcs_str`, with `out` and `out_i` at its end. -/
def trace (str1 str2 : List UInt8) (table : Table) :
    ℕ → ℕ → ℕ → Buffer → ℕ → Option (Buffer × ℕ)
  | 0, _, _, _, _ => none
  | fuel + 1, i, j, out, outI =>
      if i > 0 ∧ j > 0 then do
        let x ← str1[i - 1]?
        let y ← str2[j - 1]?
        if x = y then
          trace str1 str2 table fuel (i - 1) (j - 1) (Function.update out outI x) (outI + 1)
        else if table i (j - 1) > table (i - 1) j then
          trace str1 str2 table fuel i (j - 1) out outI
        else trace str1 str2 table fuel (i - 1) j out outI
      else some (out, outI)

def buildLcsStr (fuel : ℕ) (str1 str2 : List UInt8) (table : Table) (out : Buffer) :
    Option Buffer := do
  let (out, outI) ← trace str1 str2 table fuel str1.length str2.length out 0
  reverseStr fuel (Function.update out outI 0) outI

/-- The body of the two nested loops of `lcs`. -/
def entry (str1 str2 : List UInt8) (i : ℕ) (table : Table) (j : ℕ) : Option Table := do
  let x ← str1[i - 1]?
  let y ← str2[j - 1]?
  if x = y then return table.set i j (table (i - 1) (j - 1) + 1)
  else
    return table.set i j
      (max (max (table i (j - 1)) (table (i - 1) j)) (table (i - 1) (j - 1)))

/-- The two loops that write zeros. -/
def clear (M N : ℕ) (table : Table) : Table :=
  let table := (List.range M).foldl (fun table i => table.set i 0 0) table
  (List.range N).foldl (fun table i => table.set 0 i 0) table

def fill (str1 str2 : List UInt8) (table : Table) : Option Table :=
  (List.range' 1 str1.length).foldlM (fun table i =>
    (List.range' 1 str2.length).foldlM (entry str1 str2 i) table) table

structure Call where
  str1 : CString
  str2 : CString
  out : Buffer

/-- The result of a call, `out`, and what `lcs_table` keeps for the next call. -/
structure Outcome where
  result : ℕ
  out : Buffer
  table : Table

def lcs (fuel : ℕ) (table : Table) (call : Call) : Option Outcome :=
  let M := call.str1.length
  let N := call.str2.length
  if M ≤ maxStrSz ∧ N ≤ maxStrSz then do
    let table ← fill call.str1.bytes call.str2.bytes (clear M N table)
    let out ← buildLcsStr fuel call.str1.bytes call.str2.bytes table call.out
    return { result := table M N, out := out, table := table }
  else none

/-- What `lcs_table` holds after the calls. -/
def tableAfter (fuel : ℕ) (calls : List Call) : Option Table :=
  calls.foldlM (fun table call => (lcs fuel table call).map Outcome.table) fun _ _ => 0

/-! The table holds the lengths of the longest common subsequences of the initial parts. -/

variable {str1 str2 : List UInt8} {table : Table} {i j : ℕ}

theorem Table.set_apply (table : Table) (i j value a b : ℕ) :
    table.set i j value a b = if a = i ∧ b = j then value else table a b := by
  unfold Table.set
  by_cases ha : a = i
  · subst ha
    rw [Function.update_self]
    by_cases hb : b = j
    · rw [hb, Function.update_self, if_pos ⟨rfl, rfl⟩]
    · rw [Function.update_of_ne hb, if_neg fun h => hb h.2]
  · rw [Function.update_of_ne ha, if_neg fun h => ha h.1]

/-! ## The border -/

/-- The row and the column with the number 0 hold zeros only. -/
structure Bordered (table : Table) : Prop where
  row : ∀ b, table 0 b = 0
  column : ∀ a, table a 0 = 0

theorem Bordered.set_zero (h : Bordered table) (i j : ℕ) : Bordered (table.set i j 0) where
  row b := by
    rw [Table.set_apply, h.row]
    exact ite_self 0
  column a := by
    rw [Table.set_apply, h.column]
    exact ite_self 0

theorem Bordered.set_inside (h : Bordered table) (hi : 0 < i) (hj : 0 < j) (value : ℕ) :
    Bordered (table.set i j value) where
  row b := by rw [Table.set_apply, if_neg fun hand => hi.ne hand.1, h.row]
  column a := by rw [Table.set_apply, if_neg fun hand => hj.ne hand.2, h.column]

theorem Bordered.clear (h : Bordered table) (M N : ℕ) : Bordered (clear M N table) := by
  have hfold (place : ℕ → ℕ × ℕ) (is : List ℕ) (table : Table) (h : Bordered table) :
      Bordered (is.foldl (fun table i => table.set (place i).1 (place i).2 0) table) := by
    induction is generalizing table with
    | nil => exact h
    | cons i is ih => exact ih _ (h.set_zero _ _)
  exact hfold (0, ·) _ _ (hfold (·, 0) _ _ h)

/-! ## The entries -/

/-- The longest common subsequence of initial parts, from its end. -/
def backward (str1 str2 : List UInt8) (a b : ℕ) : List UInt8 :=
  CommonSubsequence.longest (str1.take a).reverse (str2.take b).reverse

theorem backward_zero_left (b : ℕ) : backward str1 str2 0 b = [] :=
  CommonSubsequence.longest_nil_left _

theorem backward_zero_right (a : ℕ) : backward str1 str2 a 0 = [] :=
  CommonSubsequence.longest_nil_right _

theorem reverse_take_succ {x : UInt8} (h : str1[i]? = some x) :
    (str1.take (i + 1)).reverse = x :: (str1.take i).reverse := by
  rw [List.take_add_one, h, Option.toList_some, List.reverse_append]
  rfl

theorem backward_self {x : UInt8} (hx : str1[i]? = some x) (hy : str2[j]? = some x) :
    backward str1 str2 (i + 1) (j + 1) = x :: backward str1 str2 i j := by
  unfold backward
  rw [reverse_take_succ hx, reverse_take_succ hy, CommonSubsequence.longest_cons_self]

theorem backward_of_ne {x y : UInt8} (hx : str1[i]? = some x) (hy : str2[j]? = some y)
    (hne : x ≠ y) :
    backward str1 str2 (i + 1) (j + 1) =
      if (backward str1 str2 (i + 1) j).length > (backward str1 str2 i (j + 1)).length then
        backward str1 str2 (i + 1) j
      else backward str1 str2 i (j + 1) := by
  unfold backward
  rw [reverse_take_succ hx, reverse_take_succ hy, CommonSubsequence.longest_cons_of_ne hne]

theorem backward_le_succ (i j : ℕ) :
    (backward str1 str2 i j).length ≤ (backward str1 str2 (i + 1) j).length := by
  obtain ⟨hx, hy⟩ := CommonSubsequence.longest_sublist (str1.take i).reverse (str2.take j).reverse
  exact CommonSubsequence.length_le_longest
    (hx.trans (List.take_prefix_take_left (Nat.le_succ i)).sublist.reverse) hy

theorem backward_length_le (a b : ℕ) : (backward str1 str2 a b).length ≤ str1.length := by
  have hle := (CommonSubsequence.longest_sublist (str1.take a).reverse
    (str2.take b).reverse).1.length_le
  rw [List.length_reverse, List.length_take] at hle
  exact hle.trans (Nat.min_le_right _ _)

/-- The entries before `(i, j)`, row by row, are right. -/
structure Filled (str1 str2 : List UInt8) (i j : ℕ) (table : Table) : Prop where
  border : Bordered table
  entries : ∀ a b, b ≤ str2.length → a < i ∨ a = i ∧ b < j →
    table a b = (backward str1 str2 a b).length

theorem Bordered.filled (h : Bordered table) : Filled str1 str2 1 1 table where
  border := h
  entries a b _ hab := by
    by_cases ha : a = 0
    · rw [ha, h.row, backward_zero_left]
      rfl
    · have hb : b = 0 := by omega
      rw [hb, h.column, backward_zero_right]
      rfl

theorem Filled.next_row (h : Filled str1 str2 i (1 + str2.length) table) :
    Filled str1 str2 (i + 1) 1 table where
  border := h.border
  entries a b hb hab := by
    by_cases ha : a = i + 1
    · have hb : b = 0 := by omega
      rw [hb, h.border.column, backward_zero_right]
      rfl
    · exact h.entries a b hb (by omega)

theorem Filled.set {value : ℕ} (h : Filled str1 str2 (i + 1) (j + 1) table)
    (hvalue : value = (backward str1 str2 (i + 1) (j + 1)).length) :
    Filled str1 str2 (i + 1) (j + 2) (table.set (i + 1) (j + 1) value) where
  border := h.border.set_inside (Nat.succ_pos i) (Nat.succ_pos j) value
  entries a b hb hab := by
    rw [Table.set_apply]
    by_cases heq : a = i + 1 ∧ b = j + 1
    · rw [if_pos heq, heq.1, heq.2, hvalue]
    · rw [if_neg heq]
      exact h.entries a b hb (by omega)

theorem entry_spec (h : Filled str1 str2 (i + 1) (j + 1) table) (hi : i < str1.length)
    (hj : j < str2.length) :
    ∃ table', entry str1 str2 (i + 1) table (j + 1) = some table' ∧
      Filled str1 str2 (i + 1) (j + 2) table' := by
  obtain ⟨x, hx⟩ : ∃ x, str1[i]? = some x := ⟨_, List.getElem?_eq_getElem hi⟩
  obtain ⟨y, hy⟩ : ∃ y, str2[j]? = some y := ⟨_, List.getElem?_eq_getElem hj⟩
  have hdiag := h.entries i j (by omega) (by omega)
  have hleft := h.entries (i + 1) j (by omega) (by omega)
  have habove := h.entries i (j + 1) (by omega) (by omega)
  unfold entry
  rw [Nat.add_sub_cancel, Nat.add_sub_cancel, hx, hy]
  simp only [Option.bind_eq_bind, Option.bind_some]
  by_cases heq : x = y
  · subst heq
    rw [if_pos rfl]
    refine ⟨_, rfl, h.set ?_⟩
    rw [hdiag, backward_self hx hy, List.length_cons]
  · rw [if_neg heq]
    refine ⟨_, rfl, h.set ?_⟩
    have hle := @backward_le_succ str1 str2 i j
    rw [hdiag, hleft, habove, backward_of_ne hx hy heq]
    split <;> omega

theorem fill_spec (h : Bordered table) :
    ∃ table', fill str1 str2 table = some table' ∧ Bordered table' ∧
      ∀ a b, a ≤ str1.length → b ≤ str2.length → table' a b = (backward str1 str2 a b).length := by
  apply foldlM_range'_spec fun i table => Filled str1 str2 i 1 table
  · intro i table hi hlt hfilled
    obtain ⟨i, rfl⟩ := Nat.exists_eq_add_of_le' hi
    apply foldlM_range'_spec fun j table => Filled str1 str2 (i + 1) j table
    · intro j table hj hlt' hfilled
      obtain ⟨j, rfl⟩ := Nat.exists_eq_add_of_le' hj
      exact entry_spec hfilled (by omega) (by omega)
    · exact hfilled
    · exact fun table hfilled => hfilled.next_row
  · exact h.filled
  · intro table hfilled
    exact ⟨hfilled.border, fun a b ha hb => hfilled.entries a b hb (by omega)⟩

end InterviewQuestions.Lcs

/-! The string is collected from its end, and then reversed where it stands. -/
namespace InterviewQuestions.Lcs

open Library

variable {str1 str2 s : List UInt8} {table : Table} {out str : Buffer} {i j fuel : ℕ}

/-- The buffer with `s` at its start. -/
def overwrite (out : Buffer) (s : List UInt8) : Buffer := fun k => s[k]?.getD (out k)

theorem overwrite_nil (out : Buffer) : overwrite out [] = out := rfl

theorem update_overwrite (out : Buffer) (s : List UInt8) (x : UInt8) :
    Function.update (overwrite out s) s.length x = overwrite out (s ++ [x]) := by
  funext k
  by_cases hk : k = s.length
  · rw [hk, Function.update_self, overwrite, List.getElem?_concat_length]
    rfl
  · rw [Function.update_of_ne hk]
    unfold overwrite
    by_cases hlt : k < s.length
    · rw [List.getElem?_append_left hlt]
    · rw [List.getElem?_eq_none (by omega), List.getElem?_eq_none]
      rw [List.length_append, List.length_singleton]
      omega

/-- Only what is written last counts. -/
theorem overwrite_overwrite {t : List UInt8} (out : Buffer) (rest : List UInt8)
    (h : t.length = s.length) :
    overwrite (overwrite out (s ++ rest)) t = overwrite out (t ++ rest) := by
  funext k
  unfold overwrite
  by_cases hlt : k < t.length
  · rw [List.getElem?_append_left hlt, List.getElem?_eq_getElem hlt]
    rfl
  · rw [List.getElem?_eq_none (by omega), List.getElem?_append_right (by omega),
      List.getElem?_append_right (by omega), h]
    rfl

/-! ## `reverse_str` -/

/-- Outside of `i` and `j` the entries have changed places. -/
structure Reversing (str : Buffer) (strSz i j : ℕ) (now : Buffer) : Prop where
  ends : i + j + 1 = strSz
  swapped : ∀ k < strSz, k < i ∨ j < k → now k = str (strSz - 1 - k)
  rest : ∀ k, strSz ≤ k ∨ (i ≤ k ∧ k ≤ j) → now k = str k

variable {now : Buffer} {strSz : ℕ}

theorem Reversing.step (h : Reversing str strSz i j now) (hij : i < j) :
    Reversing str strSz (i + 1) (j - 1)
      (Function.update (Function.update now i (now j)) j (now i)) where
  ends := by
    have hends := h.ends
    omega
  swapped k hk hkij := by
    have hends := h.ends
    by_cases hkj : k = j
    · rw [hkj, Function.update_self, h.rest i (by omega)]
      exact congrArg str (by omega)
    · rw [Function.update_of_ne hkj]
      by_cases hki : k = i
      · rw [hki, Function.update_self, h.rest j (by omega)]
        exact congrArg str (by omega)
      · rw [Function.update_of_ne hki]
        exact h.swapped k hk (by omega)
  rest k hk := by
    have hends := h.ends
    rw [Function.update_of_ne (by omega), Function.update_of_ne (by omega)]
    exact h.rest k (by omega)

/-- In the middle there is at most one entry. -/
theorem Reversing.done (h : Reversing str strSz i j now) (hij : j ≤ i) :
    now = fun k => if k < strSz then str (strSz - 1 - k) else str k := by
  funext k
  have hends := h.ends
  by_cases hk : k < strSz
  · rw [if_pos hk]
    by_cases hmid : k = i ∧ i = j
    · rw [h.rest k (by omega)]
      exact congrArg str (by omega)
    · exact h.swapped k hk (by omega)
  · rw [if_neg hk]
    exact h.rest k (by omega)

theorem reverseStr_loop_spec (h : Reversing str strSz i j now) (hfuel : j - i < fuel) :
    reverseStr.loop fuel now i j =
      some fun k => if k < strSz then str (strSz - 1 - k) else str k := by
  induction fuel generalizing now i j with
  | zero => omega
  | succ fuel ih =>
    rw [reverseStr.loop]
    by_cases hij : i < j
    · rw [if_pos hij]
      exact ih (h.step hij) (by omega)
    · rw [if_neg hij, h.done (Nat.not_lt.mp hij)]

theorem reverseStr_spec (str : Buffer) (hfuel : strSz < fuel) :
    reverseStr fuel str strSz = some fun k => if k < strSz then str (strSz - 1 - k) else str k := by
  unfold reverseStr
  by_cases hone : strSz ≤ 1
  · rw [if_pos hone]
    congr 1
    funext k
    by_cases hk : k < strSz
    · rw [if_pos hk]
      exact congrArg str (by omega)
    · rw [if_neg hk]
  · rw [if_neg hone]
    apply reverseStr_loop_spec _ (by omega)
    exact ⟨by omega, fun k hk hlt => absurd hlt (by omega), fun k _ => rfl⟩

theorem reverseStr_overwrite (out : Buffer) (s : List UInt8) (hfuel : s.length < fuel) :
    reverseStr fuel (overwrite out s) s.length = some (overwrite out s.reverse) := by
  rw [reverseStr_spec _ hfuel]
  congr 1
  funext k
  unfold overwrite
  by_cases hk : k < s.length
  · rw [if_pos hk, List.getElem?_reverse hk, List.getElem?_eq_getElem (by omega)]
    rfl
  · rw [if_neg hk, List.getElem?_eq_none (by omega), List.getElem?_eq_none]
    rw [List.length_reverse]
    omega

/-! ## `build_lcs_str` -/

theorem trace_spec
    (htable : ∀ a b, a ≤ str1.length → b ≤ str2.length →
      table a b = (backward str1 str2 a b).length)
    (hi : i ≤ str1.length) (hj : j ≤ str2.length) (hfuel : i + j < fuel) :
    trace str1 str2 table fuel i j (overwrite out s) s.length =
      some (overwrite out (s ++ backward str1 str2 i j), (s ++ backward str1 str2 i j).length) := by
  induction fuel generalizing i j s with
  | zero => omega
  | succ fuel ih =>
    rw [trace]
    by_cases hpos : i > 0 ∧ j > 0
    · obtain ⟨i, rfl⟩ := Nat.exists_eq_add_of_le' hpos.1
      obtain ⟨j, rfl⟩ := Nat.exists_eq_add_of_le' hpos.2
      obtain ⟨x, hx⟩ : ∃ x, str1[i]? = some x := ⟨_, List.getElem?_eq_getElem hi⟩
      obtain ⟨y, hy⟩ : ∃ y, str2[j]? = some y := ⟨_, List.getElem?_eq_getElem hj⟩
      rw [if_pos hpos, Nat.add_sub_cancel, Nat.add_sub_cancel, hx, hy]
      simp only [Option.bind_eq_bind, Option.bind_some]
      by_cases heq : x = y
      · subst heq
        have hnext := @ih (s ++ [x]) i j (by omega) (by omega) (by omega)
        rw [List.length_append, List.length_singleton] at hnext
        rw [if_pos rfl, update_overwrite, hnext, backward_self hx hy]
        simp
      · rw [if_neg heq, htable (i + 1) j hi (by omega), htable i (j + 1) (by omega) hj,
          backward_of_ne hx hy heq]
        by_cases hgt : (backward str1 str2 (i + 1) j).length > (backward str1 str2 i (j + 1)).length
        · rw [if_pos hgt, if_pos hgt]
          exact ih hi (by omega) (by omega)
        · rw [if_neg hgt, if_neg hgt]
          exact ih (by omega) hj (by omega)
    · have hnil : backward str1 str2 i j = [] := by
        rcases Nat.eq_zero_or_pos i with rfl | hi
        · exact backward_zero_left j
        · obtain rfl : j = 0 := by omega
          exact backward_zero_right i
      rw [if_neg hpos, hnil, List.append_nil]

theorem buildLcsStr_spec
    (htable : ∀ a b, a ≤ str1.length → b ≤ str2.length →
      table a b = (backward str1 str2 a b).length)
    (hfuel : str1.length + str2.length < fuel) (out : Buffer) :
    buildLcsStr fuel str1 str2 table out = some (overwrite out
      ((backward str1 str2 str1.length str2.length).reverse ++ [0])) := by
  have htrace := @trace_spec str1 str2 [] table out str1.length str2.length fuel htable
    (Nat.le_refl _) (Nat.le_refl _) hfuel
  rw [overwrite_nil, List.length_nil, List.nil_append] at htrace
  generalize hs : backward str1 str2 str1.length str2.length = s at htrace
  have hlen : s.length < fuel := by
    have hle := @backward_length_le str1 str2 str1.length str2.length
    rw [hs] at hle
    omega
  unfold buildLcsStr
  rw [htrace]
  simp only [Option.bind_eq_bind, Option.bind_some]
  rw [update_overwrite, ← overwrite_overwrite out [0] rfl, reverseStr_overwrite _ _ hlen,
    overwrite_overwrite out [0] List.length_reverse]

/-! ## `lcs` -/

/-- A call leaves nothing behind that the next one is misled by. -/
theorem lcs_spec (htable : Bordered table) (call : Call) (h1 : call.str1.length ≤ maxStrSz)
    (h2 : call.str2.length ≤ maxStrSz) (hfuel : call.str1.length + call.str2.length < fuel) :
    ∃ outcome, lcs fuel table call = some outcome ∧ Bordered outcome.table ∧
      outcome.result = (backward call.str1.bytes call.str2.bytes call.str1.length
        call.str2.length).length ∧
      outcome.out = overwrite call.out ((backward call.str1.bytes call.str2.bytes call.str1.length
        call.str2.length).reverse ++ [0]) := by
  obtain ⟨table', hfill, hborder, hentries⟩ :=
    @fill_spec call.str1.bytes call.str2.bytes _ (htable.clear call.str1.length call.str2.length)
  refine ⟨⟨_, _, table'⟩, ?_, hborder, hentries _ _ (Nat.le_refl _) (Nat.le_refl _), rfl⟩
  simp only [lcs, hfill, buildLcsStr_spec hentries hfuel, Option.bind_eq_bind, Option.bind_some]
  rw [if_pos ⟨h1, h2⟩]
  rfl

theorem lcs_bordered {call : Call} {outcome : Outcome} (htable : Bordered table)
    (h : lcs fuel table call = some outcome) : Bordered outcome.table := by
  unfold lcs at h
  simp only at h
  split at h
  case isTrue =>
    obtain ⟨table', hfill, hborder, -⟩ :=
      @fill_spec call.str1.bytes call.str2.bytes _ (htable.clear call.str1.length call.str2.length)
    obtain ⟨filled, hfilled, hrest⟩ := Option.bind_eq_some_iff.mp h
    obtain ⟨out, hout, hrest⟩ := Option.bind_eq_some_iff.mp hrest
    obtain rfl : filled = table' := Option.some.inj (hfilled.symm.trans hfill)
    rw [← Option.some.inj hrest]
    exact hborder
  case isFalse => cases h

theorem tableAfter_bordered {calls : List Call} (h : tableAfter fuel calls = some table) :
    Bordered table := by
  have hrun (calls : List Call) (start : Table) (hstart : Bordered start)
      (h : calls.foldlM (fun table call => (lcs fuel table call).map Outcome.table) start =
        some table) : Bordered table := by
    induction calls generalizing start with
    | nil => exact Option.some.inj h ▸ hstart
    | cons call calls ih =>
      rw [List.foldlM_cons] at h
      obtain ⟨next, hnext, hrest⟩ := Option.bind_eq_some_iff.mp h
      obtain ⟨outcome, houtcome, rfl⟩ := Option.map_eq_some_iff.mp hnext
      exact ih _ (lcs_bordered hstart houtcome) hrest
  exact hrun calls _ ⟨fun _ => rfl, fun _ => rfl⟩ h

/-- The length of a longest common subsequence is returned, and one is written. -/
theorem lcs_optimal (fuel : ℕ) (calls : List Call) (table : Table)
    (hcalls : tableAfter fuel calls = some table) (call : Call)
    (h1 : call.str1.length ≤ maxStrSz) (h2 : call.str2.length ≤ maxStrSz)
    (hfuel : call.str1.length + call.str2.length < fuel) :
    ∃ outcome, lcs fuel table call = some outcome ∧
      IsGreatest {n | ∃ s : List UInt8, s.Sublist call.str1.bytes ∧ s.Sublist call.str2.bytes ∧
        s.length = n} outcome.result ∧
      ∃ s : List UInt8, s.Sublist call.str1.bytes ∧ s.Sublist call.str2.bytes ∧
        s.length = outcome.result ∧ outcome.out = overwrite call.out (s ++ [0]) := by
  obtain ⟨outcome, hrun, -, hresult, hout⟩ :=
    lcs_spec (tableAfter_bordered hcalls) call h1 h2 hfuel
  have hgreatest := CommonSubsequence.longest_isGreatest call.str1.bytes.reverse
    call.str2.bytes.reverse
  have hlongest : backward call.str1.bytes call.str2.bytes call.str1.length call.str2.length =
      CommonSubsequence.longest call.str1.bytes.reverse call.str2.bytes.reverse := by
    unfold backward CString.length
    rw [List.take_length, List.take_length]
  rw [CommonSubsequence.lengths_reverse] at hgreatest
  rw [hlongest] at hresult hout
  obtain ⟨hx, hy⟩ := CommonSubsequence.longest_sublist call.str1.bytes.reverse
    call.str2.bytes.reverse
  refine ⟨outcome, hrun, hresult ▸ hgreatest, _, ?_, ?_, ?_, hout⟩
  · simpa using hx.reverse
  · simpa using hy.reverse
  · rw [List.length_reverse, hresult]

/-- The letters a and b, after a call that leaves a 1 in the table. -/
theorem lcs_optimal_after :
    let first : Call := ⟨⟨[97], by decide⟩, ⟨[97], by decide⟩, fun _ => 0⟩
    let call : Call := ⟨⟨[97, 98], by decide⟩, ⟨[98], by decide⟩, fun _ => 7⟩
    tableAfter 4 [first] = some ((clear 1 1 fun _ _ => 0).set 1 1 1) ∧
    ∃ outcome, lcs 4 ((clear 1 1 fun _ _ => 0).set 1 1 1) call = some outcome ∧
      IsGreatest {n | ∃ s : List UInt8, s.Sublist [97, 98] ∧ s.Sublist [98] ∧ s.length = n}
        outcome.result ∧
      ∃ s : List UInt8, s.Sublist [97, 98] ∧ s.Sublist [98] ∧ s.length = outcome.result ∧
        outcome.out = overwrite (fun _ => 7) (s ++ [0]) :=
  ⟨rfl, lcs_optimal 4 [⟨⟨[97], by decide⟩, ⟨[97], by decide⟩, fun _ => 0⟩] _ rfl
    ⟨⟨[97, 98], by decide⟩, ⟨[98], by decide⟩, fun _ => 7⟩ (by decide) (by decide) (by decide)⟩

end InterviewQuestions.Lcs

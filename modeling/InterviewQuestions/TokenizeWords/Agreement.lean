import InterviewQuestions.TokenizeWords.Search

/-! The bottom-up version solves every suffix. Both versions agree where neither leaves its
buffer or its `int`s. -/
namespace InterviewQuestions.TokenizeWords

open Library

variable {dictFind : List UInt8 → Bool} {str : List UInt8} {ws : List (List UInt8)} {i j k : ℕ}

/-! ## The table -/

namespace Dp

theorem spaced_ne (hws : ∀ w ∈ ws, w ≠ [] ∧ dictFind w = true) : spaced ws ≠ [32] := by
  cases ws with
  | nil => exact (List.cons_ne_nil 32 []).symm
  | cons w ws =>
    rw [spaced_cons]
    intro heq
    have hlength := congrArg List.length heq
    have hpos := List.length_pos_of_ne_nil (hws w List.mem_cons_self).1
    simp at hlength
    omega

/-- The entry is a solution of the suffix, or it says that there is none. -/
def Solved (dictFind : List UInt8 → Bool) (suffix solution : List UInt8) : Prop :=
  (solution = [32] ∧ ¬ Concatenation dictFind suffix) ∨
    ∃ ws, Segments dictFind suffix ws ∧ solution = spaced ws

theorem Solved.ne_iff {suffix solution : List UInt8} (h : Solved dictFind suffix solution) :
    solution ≠ [32] ↔ Concatenation dictFind suffix := by
  rcases h with ⟨rfl, hnot⟩ | ⟨ws, hws, rfl⟩
  · exact iff_of_false (fun hne => hne rfl) hnot
  · exact iff_of_true (spaced_ne hws.words) ⟨ws, hws⟩

/-- A word, and a solution after it. -/
def Fits (dictFind : List UInt8 → Bool) (str : List UInt8) (dp : Table) (i j : ℕ) : Prop :=
  dictFind ((str.drop i).take (j - i)) = true ∧ dp j ≠ [32]

/-- The inner loop writes the last solution that it finds, if there is one. -/
theorem foldl_entry (dictFind : List UInt8 → Bool) (str : List UInt8) (i : ℕ) (dp : Table)
    (js : List ℕ) (hjs : ∀ j ∈ js, i < j) :
    let dp' := js.foldl (entry dictFind str i) dp
    (∀ k, k ≠ i → dp' k = dp k) ∧
      (dp' i = dp i ∧ (∀ j ∈ js, ¬ Fits dictFind str dp i j) ∨
        ∃ j ∈ js, Fits dictFind str dp i j ∧
          dp' i = (str.drop i).take (j - i) ++ [32] ++ dp j) := by
  induction js using List.reverseRecOn with
  | nil => exact ⟨fun k _ => rfl, Or.inl ⟨rfl, fun j hj => by cases hj⟩⟩
  | append_singleton js j ih =>
    obtain ⟨helse, hlast⟩ := ih fun j hj => hjs j (List.mem_append_left _ hj)
    have hji : j ≠ i := Nat.ne_of_gt (hjs j (by simp))
    simp only [List.foldl_append, List.foldl_cons, List.foldl_nil]
    rw [entry, helse j hji]
    by_cases hfits : Fits dictFind str dp i j
    · rw [if_pos (by simpa [Fits] using hfits)]
      refine ⟨fun k hk => ?_, Or.inr ⟨j, by simp, hfits, Function.update_self ..⟩⟩
      rw [Function.update_of_ne hk, helse k hk]
    · rw [if_neg (by simpa [Fits] using hfits)]
      refine ⟨helse, ?_⟩
      rcases hlast with ⟨hsame, hnone⟩ | ⟨j', hj', hfits', hvalue⟩
      · refine Or.inl ⟨hsame, fun j' hj' => ?_⟩
        rcases List.mem_append.mp hj' with hj' | hj'
        · exact hnone j' hj'
        · rwa [List.mem_singleton.mp hj']
      · exact Or.inr ⟨j', List.mem_append_left _ hj', hfits', hvalue⟩

/-- The suffixes from `k` on are solved, and nothing has been written before. -/
structure SolvedFrom (dictFind : List UInt8 → Bool) (str : List UInt8) (k : ℕ) (dp : Table) :
    Prop where
  solved : ∀ m, k ≤ m → m ≤ str.length → Solved dictFind (str.drop m) (dp m)
  unset : ∀ m, m < k → dp m = [32]

theorem SolvedFrom.row {dp : Table} (h : SolvedFrom dictFind str (i + 1) dp)
    (hi : i < str.length) : SolvedFrom dictFind str i
      ((List.range' (i + 1) (str.length + 1 - (i + 1))).foldl (entry dictFind str i) dp) := by
  obtain ⟨helse, hlast⟩ := foldl_entry dictFind str i dp
    (List.range' (i + 1) (str.length + 1 - (i + 1)))
    fun j hj => (List.mem_range'_1.mp hj).1
  have hlength : (str.drop i).length = str.length - i := List.length_drop
  have hne : str.drop i ≠ [] := List.ne_nil_of_length_pos (by omega)
  have hsuffix : ∀ n, (str.drop i).drop n = str.drop (i + n) := fun n => List.drop_drop
  constructor
  · intro m hm hle
    by_cases heq : m = i
    · subst heq
      rcases hlast with ⟨hsame, hnone⟩ | ⟨j, hj, ⟨hword, hsolved⟩, hvalue⟩
      · refine Or.inl ⟨by rw [hsame, h.unset m (Nat.lt_succ_self m)], ?_⟩
        rw [concatenation_iff hne]
        rintro ⟨n, hn, hword, hrest⟩
        obtain ⟨hpos, hlt⟩ := List.mem_range'_1.mp hn
        have hmem : m + n ∈ List.range' (m + 1) (str.length + 1 - (m + 1)) := by
          rw [List.mem_range'_1]
          omega
        rw [hsuffix] at hrest
        refine hnone (m + n) hmem ⟨by rwa [Nat.add_sub_cancel_left], ?_⟩
        exact (h.solved (m + n) (by omega) (by omega)).ne_iff.mpr hrest
      · obtain ⟨hlow, hhigh⟩ := List.mem_range'_1.mp hj
        rcases h.solved j hlow (by omega) with ⟨hunset, _⟩ | ⟨ws, hws, hsolution⟩
        · exact absurd hunset hsolved
        · have hback : m + (j - m) = j := by omega
          rw [← hback, ← hsuffix] at hws
          refine Or.inr ⟨_, hws.cons (by omega) (by omega) hword, ?_⟩
          rw [hvalue, hsolution, spaced_cons]
    · rw [helse m heq]
      exact h.solved m (by omega) hle
  · intro m hm
    rw [helse m (by omega)]
    exact h.unset m (by omega)

theorem int_of_lt {z : ℤ} (hlow : -2 ^ 31 ≤ z) (hhigh : z < 2 ^ 31) : Arithmetic.int z = some z :=
  if_pos ⟨hlow, hhigh⟩

theorem rows_solved (hlength : str.length + 1 < 2 ^ 31) {dp : Table} (hi : i ≤ str.length)
    (h : SolvedFrom dictFind str i dp) :
    ∃ dp', rows dictFind str str.length i dp = some dp' ∧ SolvedFrom dictFind str 0 dp' := by
  induction i generalizing dp with
  | zero => exact ⟨dp, rfl, h⟩
  | succ i ih =>
    have hstop : Arithmetic.int ((str.length : ℤ) + 1) = some ((str.length : ℤ) + 1) :=
      int_of_lt (by omega) (by omega)
    have hnat : ((str.length : ℤ) + 1).toNat = str.length + 1 := by omega
    rw [rows, hstop, Option.bind_some, hnat]
    exact ih (by omega) (h.row hi)

theorem solvedFrom_start (dictFind : List UInt8 → Bool) (str : List UInt8) :
    SolvedFrom dictFind str str.length (Function.update (fun _ => [32]) str.length []) := by
  constructor
  · intro m hlow hhigh
    obtain rfl : m = str.length := Nat.le_antisymm hhigh hlow
    rw [Function.update_self, List.drop_length]
    exact Or.inr ⟨[], Segments.nil, rfl⟩
  · intro m hm
    exact Function.update_of_ne (Nat.ne_of_lt hm) _ _

/-- What is made of the table, once `len-1` is an `int`. -/
theorem tokenizeWords_of_rows {last : ℤ}
    (hlast : Arithmetic.int ((str.length : ℤ).bmod (2 ^ 32) - 1) = some last) :
    Dp.tokenizeWords dictFind str =
      (rows dictFind str ((str.length : ℤ).bmod (2 ^ 32)) (last + 1).toNat
        (Function.update (fun _ => [32]) str.length [])).map fun dp => if dp 0 ≠ [32] then
          some (if 0 < (dp 0).length then (dp 0).dropLast else dp 0) else none := by
  rw [Dp.tokenizeWords]
  simp only [Option.bind_eq_bind, hlast, Option.bind_some]
  cases rows dictFind str ((str.length : ℤ).bmod (2 ^ 32)) (last + 1).toNat
      (Function.update (fun _ => [32]) str.length []) with
  | none => rfl
  | some dp =>
    rw [Option.bind_some, Option.map_some]
    split <;> rfl

theorem rows_none {dp : Table} {len : ℤ} (hover : Arithmetic.int (len + 1) = none)
    (hi : 0 < i) : rows dictFind str len i dp = none := by
  obtain ⟨count, rfl⟩ : ∃ count, i = count + 1 := ⟨i - 1, by omega⟩
  rw [rows, hover, Option.bind_none]

/-- The string and its solution. -/
theorem tokenizeWords_eq (hlength : str.length + 1 < 2 ^ 31) (hne : str ≠ []) :
    (Dp.tokenizeWords dictFind str = some none ∧ ¬ Concatenation dictFind str) ∨
      ∃ ws, Segments dictFind str ws ∧
        Dp.tokenizeWords dictFind str = some (some (spaced ws).dropLast) := by
  obtain ⟨dp, hrows, hsolved⟩ := rows_solved hlength (Nat.le_refl _) (solvedFrom_start dictFind str)
  have hpos := List.length_pos_of_ne_nil hne
  have hlen : (str.length : ℤ).bmod (2 ^ 32) = str.length :=
    (Arithmetic.bmod_cases str.length).elim (fun h => by omega) fun h => by omega
  have hlast : Arithmetic.int ((str.length : ℤ).bmod (2 ^ 32) - 1) =
      some ((str.length : ℤ) - 1) := by
    rw [hlen]
    exact int_of_lt (by omega) (by omega)
  have hcount : ((str.length : ℤ) - 1 + 1).toNat = str.length := by omega
  have hall : rows dictFind str ((str.length : ℤ).bmod (2 ^ 32)) ((str.length : ℤ) - 1 + 1).toNat
      (Function.update (fun _ => [32]) str.length []) = some dp := by
    rw [hlen, hcount]
    exact hrows
  have hzero := hsolved.solved 0 (Nat.le_refl 0) (Nat.zero_le _)
  rw [List.drop_zero] at hzero
  rw [tokenizeWords_of_rows hlast, hall, Option.map_some]
  rcases hzero with ⟨hunset, hnot⟩ | ⟨ws, hws, hsolution⟩
  · exact Or.inl ⟨by rw [if_neg (not_not_intro hunset)], hnot⟩
  · refine Or.inr ⟨ws, hws, ?_⟩
    have hsome : dp 0 ≠ [32] := by
      rw [hsolution]
      exact spaced_ne hws.words
    have hlong : 0 < (dp 0).length := by
      rw [hsolution]
      exact List.length_pos_of_ne_nil (hws.spaced_ne_nil hne)
    rw [if_pos hsome, if_pos hlong, hsolution]

/-- A table that no row changes. -/
theorem rows_unset {dp : Table} {len : ℤ} (hstop : Arithmetic.int (len + 1) = some (len + 1))
    (hlen : len.toNat < str.length) (hi : i ≤ len.toNat)
    (hdp : ∀ m < str.length, dp m = [32]) : rows dictFind str len i dp = some dp := by
  induction i with
  | zero => rfl
  | succ i ih =>
    have hsame : ∀ js : List ℕ, (∀ j ∈ js, j < str.length) →
        js.foldl (entry dictFind str i) dp = dp := by
      intro js hjs
      induction js with
      | nil => rfl
      | cons j js ihjs =>
        have hentry : entry dictFind str i dp j = dp := by
          rw [entry, hdp j (hjs j List.mem_cons_self)]
          simp
        rw [List.foldl_cons, hentry]
        exact ihjs fun j hj => hjs j (List.mem_cons_of_mem _ hj)
    rw [rows, hstop, Option.bind_some, hsame _ fun j hj => ?_]
    · exact ih (by omega)
    · obtain ⟨_, hlt⟩ := List.mem_range'_1.mp hj
      omega

/-- The length is neither the largest nor the smallest `int`. -/
def LengthFits (n : ℕ) : Prop := n % 2 ^ 32 ≠ 2 ^ 31 - 1 ∧ n % 2 ^ 32 ≠ 2 ^ 31

/-- The length of a long string is some other `int`, and nothing is found. -/
theorem tokenizeWords_large (hlength : 2 ^ 31 ≤ str.length + 1) :
    (LengthFits str.length → Dp.tokenizeWords dictFind str = some none) ∧
      (¬ LengthFits str.length → Dp.tokenizeWords dictFind str = none) := by
  have hunset : ∀ m < str.length, Function.update (fun _ => [32]) str.length [] m =
      ([32] : List UInt8) := fun m hm => Function.update_of_ne (Nat.ne_of_lt hm) _ _
  have hzero := hunset 0 (by omega)
  have hnone : ∀ {last : ℤ}, Arithmetic.int ((str.length : ℤ).bmod (2 ^ 32) - 1) = some last →
      rows dictFind str ((str.length : ℤ).bmod (2 ^ 32)) (last + 1).toNat
          (Function.update (fun _ => [32]) str.length []) =
        some (Function.update (fun _ => [32]) str.length []) →
      Dp.tokenizeWords dictFind str = some none := by
    intro last hlast hrows
    rw [tokenizeWords_of_rows hlast, hrows, Option.map_some, if_neg (not_not_intro hzero)]
  unfold LengthFits
  rcases Arithmetic.bmod_cases str.length with ⟨hrest, hlen⟩ | ⟨hrest, hlen⟩
  · have hlast : Arithmetic.int ((str.length : ℤ).bmod (2 ^ 32) - 1) =
        some ((str.length : ℤ).bmod (2 ^ 32) - 1) := int_of_lt (by omega) (by omega)
    have hcount : ((str.length : ℤ).bmod (2 ^ 32) - 1 + 1).toNat =
        ((str.length : ℤ).bmod (2 ^ 32)).toNat := by omega
    constructor
    · intro hfits
      have hstop : Arithmetic.int ((str.length : ℤ).bmod (2 ^ 32) + 1) =
          some ((str.length : ℤ).bmod (2 ^ 32) + 1) := int_of_lt (by omega) (by omega)
      apply hnone hlast
      rw [hcount]
      exact rows_unset hstop (by omega) (Nat.le_refl _) hunset
    · intro hfits
      have hover : Arithmetic.int ((str.length : ℤ).bmod (2 ^ 32) + 1) = none :=
        if_neg fun h => by omega
      rw [tokenizeWords_of_rows hlast, rows_none hover (by omega), Option.map_none]
  · constructor
    · intro hfits
      have hlast : Arithmetic.int ((str.length : ℤ).bmod (2 ^ 32) - 1) =
          some ((str.length : ℤ).bmod (2 ^ 32) - 1) := int_of_lt (by omega) (by omega)
      have hcount : ((str.length : ℤ).bmod (2 ^ 32) - 1 + 1).toNat = 0 := by omega
      apply hnone hlast
      rw [hcount]
      rfl
    · intro hfits
      have hunder : Arithmetic.int ((str.length : ℤ).bmod (2 ^ 32) - 1) = none :=
        if_neg fun h => by omega
      rw [Dp.tokenizeWords]
      simp only [Option.bind_eq_bind, hunder]
      rfl

end Dp

/-! ## Both versions -/

/-- The words with a space between them. -/
theorem dropLast_spaced (hne : ws ≠ []) : (spaced ws).dropLast = [32].intercalate ws := by
  have hsplit : ∀ ws : List (List UInt8), ws ≠ [] → spaced ws = [32].intercalate ws ++ [32] := by
    intro ws hne
    induction ws with
    | nil => exact absurd rfl hne
    | cons w ws ih =>
      cases ws with
      | nil => simp [spaced, List.intercalate]
      | cons w' ws =>
        rw [spaced_cons, ih (List.cons_ne_nil w' ws), List.intercalate_cons_cons]
        simp
  rw [hsplit ws hne, List.dropLast_concat]

/-- Split at the spaces, the output is the words again. -/
theorem Segments.output (h : Segments dictFind str ws) (hne : str ≠ []) (hspace : 32 ∉ str) :
    Segments dictFind str ((spaced ws).dropLast.splitOn 32) := by
  have hws : ws ≠ [] := by
    rintro rfl
    exact hne h.joins.symm
  have hfree : ∀ w ∈ ws, 32 ∉ w := by
    intro w hw hmem
    apply hspace
    rw [← h.joins]
    exact List.mem_flatten.mpr ⟨w, hw, hmem⟩
  rw [dropLast_spaced hws, List.splitOn_intercalate 32 hfree hws]
  exact h

namespace Recursive

/-- The words that the search has left in the buffer, without the last space. -/
theorem tokenizeWords_true {junk : ℕ → UInt8} {string : CString} (hne : string.bytes ≠ [])
    {buffer : List UInt8} (h : tokenizeWordsAux dictFind (string.length + 1) string.bytes 0
      ((List.range (2 * string.length)).map junk) = some (true, buffer))
    (hwritten : Written dictFind [] string.bytes buffer) : ∃ ws, Segments dictFind string.bytes ws ∧
      Recursive.tokenizeWords dictFind junk string = some (some (spaced ws).dropLast) := by
  obtain ⟨ws, rest, hws, rfl⟩ := hwritten
  refine ⟨ws, hws, ?_⟩
  rw [List.nil_append] at h
  have hnul : 0 ∉ spaced ws := by
    intro hmem
    obtain ⟨t, ht, hzero⟩ := List.mem_flatten.mp hmem
    obtain ⟨w, hw, rfl⟩ := List.mem_map.mp ht
    rcases List.mem_append.mp hzero with hzero | hzero
    · apply string.no_nul
      rw [← hws.joins]
      exact List.mem_flatten.mpr ⟨w, hw, hzero⟩
    · simp at hzero
  have hpos : spaced ws ≠ [] := hws.spaced_ne_nil hne
  have hbytes : (CString.ofBuffer (spaced ws ++ 0 :: rest)).bytes = spaced ws :=
    CString.bytes_ofBuffer hnul rest
  have hlength : (CString.ofBuffer (spaced ws ++ 0 :: rest)).length = (spaced ws).length := by
    rw [CString.length, hbytes]
  have hset : (spaced ws ++ 0 :: rest).set ((spaced ws).length - 1) 0 =
      (spaced ws).dropLast ++ 0 :: 0 :: rest := by
    obtain ⟨front, c, hsplit⟩ := List.eq_nil_or_concat (spaced ws) |>.resolve_left hpos
    rw [List.concat_eq_append] at hsplit
    rw [hsplit, List.dropLast_concat, List.length_append, List.length_singleton,
      Nat.add_sub_cancel, List.append_assoc, List.set_append_right _ _ (Nat.le_refl _),
      Nat.sub_self]
    rfl
  have hmem : (0 : UInt8) ∈ spaced ws ++ 0 :: rest := by simp
  have hshort : 0 ∉ (spaced ws).dropLast := fun hmem => hnul (List.dropLast_subset _ hmem)
  rw [Recursive.tokenizeWords, if_neg hne]
  simp only [h, hmem, if_true, hlength, List.length_pos_of_ne_nil hpos, hset]
  rw [CString.bytes_ofBuffer hshort]

theorem tokenizeWords_none {junk : ℕ → UInt8} {string : CString} (hne : string.bytes ≠ []) :
    Recursive.tokenizeWords dictFind junk string = some none ↔
      ∃ buffer, tokenizeWordsAux dictFind (string.length + 1) string.bytes 0
        ((List.range (2 * string.length)).map junk) = some (false, buffer) := by
  rw [Recursive.tokenizeWords, if_neg hne]
  cases hres : tokenizeWordsAux dictFind (string.length + 1) string.bytes 0
      ((List.range (2 * string.length)).map junk) with
  | none => simp [hres]
  | some found =>
    obtain ⟨ok, buffer⟩ := found
    cases ok with
    | false => simp [hres]
    | true => by_cases hmem : 0 ∈ buffer <;> simp [hres, hmem]

end Recursive

/-- Both return a solution exactly when there is one, and what they return is one. -/
def Agree (dictFind : List UInt8 → Bool) (junk : ℕ → UInt8) (string : CString) : Prop :=
  ∃ res out, Recursive.tokenizeWords dictFind junk string = some res ∧
    Dp.tokenizeWords dictFind string.bytes = some out ∧ (res.isSome ↔ out.isSome) ∧
    (out.isSome ↔ Concatenation dictFind string.bytes) ∧
    ∀ words, words ∈ res ∨ words ∈ out → Segments dictFind string.bytes (words.splitOn 32)

/-- Some letter is no word, and the lengths are `int`s, or nothing is found anyway. -/
def Manageable (dictFind : List UInt8 → Bool) (str : List UInt8) : Prop :=
  (∃ c ∈ str, dictFind [c] = false) ∧
    (str.length + 1 < 2 ^ 31 ∨ Dp.LengthFits str.length ∧ Printable dictFind str ∧
      ¬ Concatenation dictFind str)

section Agreement

open Recursive

variable {junk : ℕ → UInt8} {string : CString}

theorem length_junk (junk : ℕ → UInt8) (string : CString) :
    ((List.range (2 * string.length)).map junk).length = 2 * string.bytes.length := by
  rw [List.length_map, List.length_range, CString.length]

/-- Letters that are all words are a concatenation for which the buffer is too small. -/
theorem Agree.letter (h : Agree dictFind junk string) (hne : string.bytes ≠ []) :
    ∃ c ∈ string.bytes, dictFind [c] = false := by
  obtain ⟨res, _, hres, _⟩ := h
  by_contra hnone
  have hall : ∀ c ∈ string.bytes, dictFind [c] = true := by
    intro c hc
    by_contra hword
    exact hnone ⟨c, hc, by simpa using hword⟩
  have hbuffer :
      ((List.range (2 * string.length)).map junk).length = 0 + 2 * string.bytes.length := by
    rw [length_junk, Nat.zero_add]
  have hover : tokenizeWordsAux dictFind (string.length + 1) string.bytes 0
      ((List.range (2 * string.length)).map junk) = none :=
    tokenizeWordsAux_letters hne hall hbuffer
  rw [Recursive.tokenizeWords, if_neg hne] at hres
  simp only [hover] at hres
  cases hres

theorem Agree.manageable (h : Agree dictFind junk string) (hne : string.bytes ≠ []) :
    Manageable dictFind string.bytes := by
  refine ⟨h.letter hne, ?_⟩
  obtain ⟨res, out, hres, hout, hboth, hconcat, _⟩ := h
  by_cases hlength : string.bytes.length + 1 < 2 ^ 31
  · exact Or.inl hlength
  · have hlarge : 2 ^ 31 ≤ string.bytes.length + 1 := by omega
    by_cases hfits : Dp.LengthFits string.bytes.length
    · rw [(Dp.tokenizeWords_large hlarge).1 hfits, Option.some.injEq] at hout
      subst hout
      have hfail : res = none := by
        cases res with
        | none => rfl
        | some words => exact absurd (hboth.mp rfl) (by simp)
      rw [hfail] at hres
      obtain ⟨buffer, hfalse⟩ := (Recursive.tokenizeWords_none hne).mp hres
      obtain ⟨hnot, hprintable⟩ := tokenizeWordsAux_false hfalse
      exact Or.inr ⟨hfits, hprintable, hnot⟩
    · rw [(Dp.tokenizeWords_large hlarge).2 hfits] at hout
      cases hout

/-- What the search returns where the buffer is large enough. -/
theorem tokenizeWords_eq (junk : ℕ → UInt8) (hne : string.bytes ≠ [])
    (hletter : ∃ c ∈ string.bytes, dictFind [c] = false)
    (hprintable : Printable dictFind string.bytes) :
    (Recursive.tokenizeWords dictFind junk string = some none ∧
        ¬ Concatenation dictFind string.bytes) ∨
      ∃ ws, Segments dictFind string.bytes ws ∧
        Recursive.tokenizeWords dictFind junk string = some (some (spaced ws).dropLast) := by
  have hkept : Kept [] (2 * string.bytes.length) ((List.range (2 * string.length)).map junk) := by
    refine ⟨List.nil_prefix, ?_⟩
    rw [length_junk, List.length_nil, Nat.zero_add]
  have hdecides := tokenizeWordsAux_decides (Nat.lt_succ_self _) hprintable
    (Or.inr ⟨Nat.le_refl _, hletter⟩) hkept fun hnil => absurd hnil hne
  rcases hdecides with ⟨buffer, htrue, hwritten⟩ | ⟨buffer, hfalse, _, hnot⟩
  · exact Or.inr (tokenizeWords_true hne htrue hwritten)
  · exact Or.inl ⟨(tokenizeWords_none hne).mpr ⟨buffer, hfalse⟩, hnot⟩

theorem Manageable.agree (h : Manageable dictFind string.bytes) (hne : string.bytes ≠ [])
    (hspace : 32 ∉ string.bytes) : Agree dictFind junk string := by
  obtain ⟨hletter, hlong⟩ := h
  have hprintable : Printable dictFind string.bytes :=
    hlong.elim printable_of_length fun h => h.2.1
  have hdp : (Dp.tokenizeWords dictFind string.bytes = some none ∧
      ¬ Concatenation dictFind string.bytes) ∨ ∃ ws, Segments dictFind string.bytes ws ∧
        Dp.tokenizeWords dictFind string.bytes = some (some (spaced ws).dropLast) := by
    by_cases hlength : string.bytes.length + 1 < 2 ^ 31
    · exact Dp.tokenizeWords_eq hlength hne
    · obtain ⟨hfits, _, hnot⟩ := hlong.resolve_left hlength
      exact Or.inl ⟨(Dp.tokenizeWords_large (by omega)).1 hfits, hnot⟩
  rcases tokenizeWords_eq junk hne hletter hprintable with
    ⟨hres, hnot⟩ | ⟨ws, hws, hres⟩
  · rcases hdp with ⟨hout, _⟩ | ⟨ws, hws, _⟩
    · refine ⟨none, none, hres, hout, Iff.rfl, iff_of_false (by simp) hnot, ?_⟩
      rintro words (hwords | hwords) <;> cases hwords
    · exact absurd ⟨ws, hws⟩ hnot
  · rcases hdp with ⟨_, hnot⟩ | ⟨ws', hws', hout⟩
    · exact absurd ⟨ws, hws⟩ hnot
    · refine ⟨_, _, hres, hout, Iff.rfl, iff_of_true rfl ⟨ws, hws⟩, ?_⟩
      rintro words (hwords | hwords)
      · obtain rfl := Option.some.inj hwords
        exact hws.output hne hspace
      · obtain rfl := Option.some.inj hwords
        exact hws'.output hne hspace

end Agreement

end InterviewQuestions.TokenizeWords

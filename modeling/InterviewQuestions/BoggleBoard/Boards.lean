import InterviewQuestions.BoggleBoard.Scores
import InterviewQuestions.Library.Backtracking
import Mathlib.Data.List.ProdSigma
import Mathlib.Algebra.BigOperators.Group.Finset.Piecewise
import Mathlib.Algebra.Order.BigOperators.Group.Finset
import Mathlib.Data.List.Nodup
import Mathlib.Data.Set.Insert

/-! Boards: how they are filled with letters, and the search for the best word with the dictionary
that the commands of `main` have filled. -/
namespace InterviewQuestions.BoggleBoard

open Library Machine Backtracking

/-- `char **board` -/
abbrev Board := ℤ → ℤ → Letter

/-- `board[i][j] = letter` -/
def Board.put (board : Board) (cell : ℤ × ℤ) (letter : Letter) : Board :=
  fun row col => if (row, col) = cell then letter else board row col

/-- The cells in the order of two loops. -/
def cells (n : ℕ) : List (ℤ × ℤ) :=
  (List.range n ×ˢ List.range n).map fun (i, j) => (↑i, ↑j)

/-! ## Question (a) -/

/-- The `while` loop. `gen` are the letters that `letter_gen` is going to give; `none` where it
has to give more. -/
def nextLetter (n : ℕ) (lettersUsed : Fin alphabetSz → ℕ) :
    List Letter → Option (Letter × List Letter)
  | [] => none
  | letter :: gen =>
      if lettersUsed (index letter) > n then nextLetter n lettersUsed gen else some (letter, gen)

/-- The loops over the cells that are left. -/
def fillBoard (n : ℕ) :
    List (ℤ × ℤ) → (Fin alphabetSz → ℕ) → List Letter → Board → Option Board
  | [], _, _, board => some board
  | cell :: cells, lettersUsed, gen, board =>
      match nextLetter n lettersUsed gen with
      | none => none
      | some (letter, gen) =>
          fillBoard n cells
            (Function.update lettersUsed (index letter) (lettersUsed (index letter) + 1)) gen
            (board.put cell letter)

/-- `memory` is what `malloc` returns. -/
def generateBoardAux (n : ℕ) (gen : List Letter) (memory : Board) : Option Board :=
  fillBoard n (cells n) (fun _ => 0) gen memory

/-! ## Question (b) -/

/-- `row+i` and `col+j`, in the order of the two loops. -/
def steps : List (ℤ × ℤ) :=
  (([-1, 0, 1] : List ℤ) ×ˢ [-1, 0, 1]).filter fun (i, j) => ¬ (i = 0 ∧ j = 0)

/-- `word` are the letters in `word_buff`, and `room` is `buff_sz-1-buff_i`. -/
def findBestWordAux (score : List Letter → Int32) (board : Board) (boardDims : ℕ) :
    ℕ → ℤ → ℤ → List Letter → Option (List Letter) × Int32
  | room, row, col, word =>
      if row < 0 ∨ row = boardDims ∨ col < 0 ∨ col = boardDims then (none, -1)
      else match room with
        | 0 => if score word = -1 then (none, -1) else (some word, score word)
        | room + 1 =>
            let word := word ++ [board row col]
            if score word = -1 then (none, -1)
            else steps.foldl
              (fun best (i, j) => keepBetter best
                (findBestWordAux score board boardDims room (row + i) (col + j) word))
              (some word, score word)

/-- `sizeof(word_buffer)` -/
abbrev buffSz : ℕ := 1024

def findBestWord (score : List Letter → Int32) (board : Board) (boardDim : ℕ) :
    Option (List Letter) :=
  ((cells boardDim).foldl
    (fun best (i, j) => keepBetter best
      (findBestWordAux score board boardDim (buffSz - 1) i j []))
    (none, -1)).1

/-! ## The commands -/

/-- `MAX_WORD_SZ` -/
abbrev maxWordSz : ℕ := 512

/-- What `scanf` reads into `word_buff`. -/
abbrev Word := {word : List Letter // 0 < word.length ∧ word.length < maxWordSz}

/-- A number that `insert_word` gets as it was entered. -/
abbrev Score := {score : ℕ // score < 2 ^ 31}

/-- The commands `W`, `A` and `R` of `main`. -/
inductive Command where
  | insert (score : Score) (word : Word)
  | insertAll (score : Score) (word : Word)
  | remove (word : Word)

theorem neg_one_lt_ofNat (score : Score) : -1 < Int32.ofNat score := by
  rw [Int32.lt_iff_toInt_lt, Int32.toInt_ofNat_of_lt score.property]
  exact lt_of_lt_of_le (by decide) (Int.natCast_nonneg _)

theorem ofNat_ne_neg_one (score : Score) : Int32.ofNat score ≠ -1 := by
  intro heq
  have hlt := neg_one_lt_ofNat score
  rw [heq] at hlt
  exact absurd hlt (by decide)

/-- The calls that a command makes. -/
def Command.ops : Command → List Op
  | .insert score word => [.insertWord word ⟨Int32.ofNat score, ofNat_ne_neg_one score⟩]
  | .insertAll score word =>
      (List.range' 1 (word.val.length - 1)).map
          (fun i => .insertWord (word.val.take i) ⟨0, by decide⟩) ++
        [.insertWord word ⟨Int32.ofNat score, ofNat_ne_neg_one score⟩]
  | .remove word => [.deleteWord word]

/-- The trie after the commands. -/
def dictionary (commands : List Command) : TrieNode :=
  (run step newTrie (commands.flatMap Command.ops)).1

/-! ## The letters on a board -/

def Board.letter (board : Board) (cell : ℤ × ℤ) : Letter := board cell.1 cell.2

def Inside (n : ℕ) (cell : ℤ × ℤ) : Prop :=
  0 ≤ cell.1 ∧ cell.1 < n ∧ 0 ≤ cell.2 ∧ cell.2 < n

variable {score : List Letter → Int32} {board board' : Board} {n room : ℕ} {word : List Letter}
  {c d : ℤ × ℤ} {row col : ℤ} {used : Fin alphabetSz → ℕ} {todo : List (ℤ × ℤ)}
  {gen skipped rest : List Letter} {letter : Letter} {stream : ℕ → Letter}

theorem mem_cells : c ∈ cells n ↔ Inside n c := by
  obtain ⟨row, col⟩ := c
  simp only [cells, List.mem_map, List.mem_product, List.mem_range, Prod.exists, Prod.mk.injEq,
    Inside]
  constructor
  · rintro ⟨i, j, ⟨hi, hj⟩, rfl, rfl⟩
    omega
  · rintro ⟨hrow, hrow', hcol, hcol'⟩
    exact ⟨row.toNat, col.toNat, by omega, by omega, by omega⟩

theorem length_cells : (cells n).length = n * n := by
  rw [cells, List.length_map, List.length_product, List.length_range]

theorem nodup_cells : (cells n).Nodup := by
  apply (List.nodup_range.product List.nodup_range).map
  rintro ⟨i, j⟩ ⟨i', j'⟩ h
  simpa only [Prod.mk.injEq, Int.natCast_inj] using h

theorem nextLetter_append (hskip : ∀ l ∈ skipped, n < used (index l))
    (hletter : used (index letter) ≤ n) :
    nextLetter n used (skipped ++ letter :: rest) = some (letter, rest) := by
  induction skipped with
  | nil => exact if_neg (by omega)
  | cons l skipped ih =>
    rw [List.forall_mem_cons] at hskip
    rw [List.cons_append, nextLetter, if_pos hskip.1]
    exact ih hskip.2

theorem le_of_nextLetter (h : nextLetter n used gen = some (letter, rest)) :
    used (index letter) ≤ n := by
  induction gen with
  | nil => cases h
  | cons l gen ih =>
    rw [nextLetter] at h
    split at h
    · exact ih h
    · cases h
      omega

/-- A letter has been used once more. -/
theorem bounded_update (hused : ∀ i, used i ≤ n + 1) (h : used (index letter) ≤ n)
    (i : Fin alphabetSz) :
    Function.update used (index letter) (used (index letter) + 1) i ≤ n + 1 := by
  rw [Function.update_apply]
  split
  · omega
  · exact hused i

theorem sum_update (i : Fin alphabetSz) :
    ∑ j, Function.update used i (used i + 1) j = ∑ j, used j + 1 := by
  rw [Finset.sum_update_of_mem (Finset.mem_univ i), ← Finset.add_sum_erase _ _ (Finset.mem_univ i),
    Finset.sdiff_singleton_eq_erase]
  omega

/-- There has to be room for the letters of all cells. -/
theorem fillBoard_room (hused : ∀ i, used i ≤ n + 1)
    (h : fillBoard n todo used gen board = some board') :
    todo.length + ∑ i, used i ≤ alphabetSz * (n + 1) := by
  induction todo generalizing used gen board with
  | nil =>
    have hsum := Finset.sum_le_card_nsmul Finset.univ used (n + 1) fun i _ => hused i
    simpa using hsum
  | cons cell todo ih =>
    rw [fillBoard] at h
    split at h
    case h_1 => cases h
    case h_2 letter rest hnext =>
      have hle := ih (bounded_update hused (le_of_nextLetter hnext)) h
      rw [sum_update] at hle
      rw [List.length_cons]
      omega

theorem letter_put (board : Board) (cell : ℤ × ℤ) (letter : Letter) (c : ℤ × ℤ) :
    (board.put cell letter).letter c = if c = cell then letter else board.letter c := rfl

theorem fillBoard_other (hc : c ∉ todo) (h : fillBoard n todo used gen board = some board') :
    board'.letter c = board.letter c := by
  induction todo generalizing used gen board with
  | nil =>
    cases h
    rfl
  | cons cell todo ih =>
    rw [List.mem_cons, not_or] at hc
    rw [fillBoard] at h
    split at h
    case h_1 => cases h
    case h_2 => rw [ih hc.2 h, letter_put, if_neg hc.1]

/-- `letters_used` is what its name says. -/
theorem fillBoard_count (hnodup : todo.Nodup) (hused : ∀ i, used i ≤ n + 1)
    (h : fillBoard n todo used gen board = some board') (l : Letter) :
    used (index l) + (todo.map board'.letter).count l ≤ n + 1 := by
  induction todo generalizing used gen board with
  | nil => simpa using hused (index l)
  | cons cell todo ih =>
    rw [List.nodup_cons] at hnodup
    rw [fillBoard] at h
    split at h
    case h_1 => cases h
    case h_2 letter rest hnext =>
      have hcell := fillBoard_other hnodup.1 h
      have hle := ih hnodup.2 (bounded_update hused (le_of_nextLetter hnext)) h
      rw [letter_put, if_pos rfl] at hcell
      rw [List.map_cons, hcell, List.count_cons]
      rw [Function.update_apply] at hle
      by_cases hl : letter = l
      · subst hl
        simp at hle ⊢
        omega
      · have hindex : index l ≠ index letter := fun heq => hl (index_injective heq).symm
        rw [if_neg hindex] at hle
        simpa only [beq_iff_eq, hl, if_false, Nat.add_zero] using hle

/-- `'a'+i` -/
def letterOf (i : Fin alphabetSz) : Letter := ⟨UInt8.ofNat (97 + i), by revert i; decide⟩

@[simp] theorem index_letterOf (i : Fin alphabetSz) : index (letterOf i) = i := by
  revert i
  decide

/-- As long as a cell is empty, some letter can still be used. -/
theorem exists_next (hroom : ∑ i, used i < alphabetSz * (n + 1))
    (hfair : ∀ letter k, ∃ i, stream (k + i) = letter) (start : ℕ) :
    ∃ m, used (index (stream (start + m))) ≤ n ∧
      ∀ i < m, n < used (index (stream (start + i))) := by
  have hfree : ∃ i, used i ≤ n := by
    by_contra hall
    push Not at hall
    have hsum := Finset.card_nsmul_le_sum Finset.univ used (n + 1) fun i _ => hall i
    rw [Finset.card_univ, Fintype.card_fin, Nat.nsmul_eq_mul] at hsum
    exact absurd hroom (not_lt.mpr hsum)
  obtain ⟨i, hi⟩ := hfree
  have hex : ∃ m, used (index (stream (start + m))) ≤ n := by
    obtain ⟨m, hm⟩ := hfair (letterOf i) start
    exact ⟨m, by rwa [hm, index_letterOf]⟩
  exact ⟨Nat.find hex, Nat.find_spec hex, fun i hi => by simpa using Nat.find_min hex hi⟩

theorem fillBoard_isSome (hfair : ∀ letter k, ∃ i, stream (k + i) = letter)
    (hroom : todo.length + ∑ i, used i ≤ alphabetSz * (n + 1)) (start : ℕ) (board : Board) :
    ∃ k, (fillBoard n todo used ((List.range' start k).map stream) board).isSome := by
  induction todo generalizing used start board with
  | nil => exact ⟨0, rfl⟩
  | cons cell todo ih =>
    rw [List.length_cons] at hroom
    have hfree : ∑ i, used i < alphabetSz * (n + 1) := by omega
    obtain ⟨m, hm, hmin⟩ := exists_next hfree hfair start
    have hnext : todo.length + ∑ i, Function.update used (index (stream (start + m)))
        (used (index (stream (start + m))) + 1) i ≤ alphabetSz * (n + 1) := by
      rw [sum_update]
      omega
    obtain ⟨k, hk⟩ := ih hnext (start + m + 1) (board.put cell (stream (start + m)))
    refine ⟨m + (k + 1), ?_⟩
    have hsplit : (List.range' start (m + (k + 1))).map stream =
        (List.range' start m).map stream ++
          stream (start + m) :: (List.range' (start + m + 1) k).map stream := by
      rw [← List.range'_append_1, List.map_append, List.range'_succ, List.map_cons]
    rw [fillBoard, hsplit, nextLetter_append ?_ hm]
    · exact hk
    · rw [List.forall_mem_map]
      intro i hi
      obtain ⟨hle, hlt⟩ := List.mem_range'_1.mp hi
      have hused := hmin (i - start) (by omega)
      rwa [Nat.add_sub_cancel' hle] at hused

/-- A letter is used at most once more than `n` times. Whatever letters `letter_gen` gives, if it
never stops giving each of them, the board is filled exactly if it is not too large for that. -/
theorem generate_board (hfair : ∀ letter k, ∃ i, stream (k + i) = letter) (n : ℕ) (memory : Board) :
    (∀ gen board, generateBoardAux n gen memory = some board →
      ∀ letter, ((cells n).map board.letter).count letter ≤ n + 1) ∧
    ((∃ k, (generateBoardAux n ((List.range k).map stream) memory).isSome) ↔ n ≤ 26) := by
  refine ⟨fun gen board h letter => ?_, ?_⟩
  · simpa using fillBoard_count nodup_cells (by simp) h letter
  · constructor
    · rintro ⟨k, hk⟩
      obtain ⟨board, hboard⟩ := Option.isSome_iff_exists.mp hk
      have hroom := fillBoard_room (by simp) hboard
      simp only [length_cells, Finset.sum_const_zero, Nat.add_zero, alphabetSz] at hroom
      by_contra hn
      have hmul : 27 * n ≤ n * n := Nat.mul_le_mul_right n (by omega)
      omega
    · intro hn
      have hmul : n * n ≤ 26 * n := Nat.mul_le_mul_right n hn
      simp only [generateBoardAux, List.range_eq_range']
      apply fillBoard_isSome hfair
      simp only [length_cells, Finset.sum_const_zero, Nat.add_zero, alphabetSz]
      omega

/-- The letters in their order, over and over. -/
def alphabet (i : ℕ) : Letter := letterOf ⟨i % 26, Nat.mod_lt i (by decide)⟩

theorem alphabet_fair (letter : Letter) (k : ℕ) : ∃ i, alphabet (k + i) = letter := by
  refine ⟨25 * k + (index letter).val, index_injective ?_⟩
  rw [alphabet, index_letterOf]
  apply Fin.ext
  have hlt := (index letter).isLt
  simp only [alphabetSz] at hlt ⊢
  omega

theorem generate_board_alphabet : ∃ k, (generateBoardAux 3 ((List.range k).map alphabet)
    (fun _ _ => letterOf 0)).isSome :=
  (generate_board alphabet_fair 3 _).2.mpr (by decide)

/-! ## Words on the board -/

def Adjacent (c d : ℤ × ℤ) : Prop :=
  c ≠ d ∧ (d.1 - c.1).natAbs ≤ 1 ∧ (d.2 - c.2).natAbs ≤ 1

/-- What can be read from a cell on, behind `word`, so that each beginning that is longer than
`word` is a word. -/
def Readable (score : List Letter → Int32) (board : Board) (n : ℕ) (word : List Letter)
    (c : ℤ × ℤ) : Set (List Letter) :=
  {longer | ∃ rest, List.IsChain Adjacent (c :: rest) ∧ (∀ d ∈ c :: rest, Inside n d) ∧
    longer = word ++ (c :: rest).map board.letter ∧
    ∀ p, p <+: longer → word.length < p.length → score p ≠ -1}

theorem mem_steps {i j : ℤ} : (i, j) ∈ steps ↔ ¬ (i = 0 ∧ j = 0) ∧ i.natAbs ≤ 1 ∧ j.natAbs ≤ 1 := by
  simp [steps]
  omega

theorem adjacent_iff : Adjacent c d ↔ ∃ s ∈ steps, d = (c.1 + s.1, c.2 + s.2) := by
  constructor
  · rintro ⟨hne, hrow, hcol⟩
    refine ⟨(d.1 - c.1, d.2 - c.2), mem_steps.mpr ⟨?_, hrow, hcol⟩, ?_⟩
    · rintro ⟨h, h'⟩
      exact hne (Prod.ext (by omega) (by omega))
    · ext <;> omega
  · rintro ⟨⟨i, j⟩, hs, rfl⟩
    obtain ⟨hne, hrow, hcol⟩ := mem_steps.mp hs
    refine ⟨?_, by omega, by omega⟩
    intro heq
    have h := congrArg Prod.fst heq
    have h' := congrArg Prod.snd heq
    simp only at h h'
    exact hne ⟨by omega, by omega⟩

theorem readable_outside (h : ¬ Inside n c) : Readable score board n word c = ∅ := by
  ext longer
  simp only [Set.mem_empty_iff_false, iff_false]
  rintro ⟨rest, -, hinside, -⟩
  exact h (hinside c List.mem_cons_self)

theorem readable_no_word (h : score (word ++ [board.letter c]) = -1) :
    Readable score board n word c = ∅ := by
  ext longer
  simp only [Set.mem_empty_iff_false, iff_false]
  rintro ⟨rest, -, -, rfl, hwords⟩
  refine hwords (word ++ [board.letter c]) ?_ (by simp) h
  simp

/-- What can be read is the word with the letter of the cell, and what can be read behind it from
the cells around. -/
theorem readable_word (hc : Inside n c) (h : score (word ++ [board.letter c]) ≠ -1) :
    Readable score board n word c = {word ++ [board.letter c]} ∪
      {longer | ∃ s ∈ steps, longer ∈
        Readable score board n (word ++ [board.letter c]) (c.1 + s.1, c.2 + s.2)} := by
  ext longer
  constructor
  · rintro ⟨rest, hchain, hinside, rfl, hwords⟩
    cases rest with
    | nil => exact Or.inl rfl
    | cons d rest =>
      rw [List.isChain_cons_cons] at hchain
      obtain ⟨s, hs, rfl⟩ := adjacent_iff.mp hchain.1
      refine Or.inr ⟨s, hs, rest, hchain.2, fun d hd => hinside d (List.mem_cons_of_mem c hd), ?_,
        fun p hp hlen => hwords p hp ?_⟩
      · simp
      · simp at hlen
        omega
  · rintro (rfl | ⟨s, hs, rest, hchain, hinside, rfl, hwords⟩)
    · refine ⟨[], List.IsChain.singleton c, by simpa using hc, rfl, ?_⟩
      intro p hp hlen
      have hlen' : (word ++ [board.letter c]).length ≤ p.length := by
        simpa [Nat.succ_le_iff] using hlen
      rwa [hp.eq_of_length_le hlen']
    · refine ⟨_ :: rest, List.isChain_cons_cons.mpr ⟨adjacent_iff.mpr ⟨s, hs, rfl⟩, hchain⟩,
        List.forall_mem_cons.mpr ⟨hc, hinside⟩, by simp, ?_⟩
      intro p hp hlen
      by_cases hlonger : (word ++ [board.letter c]).length < p.length
      · exact hwords p hp hlonger
      · have hsame : p = word ++ [board.letter c] := by
          apply List.IsPrefix.eq_of_length
          · exact List.prefix_of_prefix_length_le hp (List.prefix_append _ _) (by omega)
          · simp at hlonger ⊢
            omega
        rwa [hsame]

/-! ## The search -/

/-- The scores in a dictionary. -/
structure Scored (score : List Letter → Int32) : Prop where
  positive : ∀ {word}, score word ≠ -1 → -1 < score word
  short : ∀ {word}, score word ≠ -1 → word.length < maxWordSz

/-- The words of the dictionary are shorter than the buffer, so the recursion never gets to its
end. -/
theorem champion_findBestWordAux (h : Scored score) (hroom : word.length + room = buffSz - 1)
    (hrow : row ≤ n) (hcol : col ≤ n) :
    Champion score (-1) (Readable score board n word (row, col))
      (findBestWordAux score board n room row col word) := by
  induction room generalizing row col word with
  | zero =>
    have hlong : ∀ {longer}, word.length ≤ longer.length → score longer = -1 := by
      intro longer hle
      by_contra hword
      have := h.short hword
      simp [buffSz, maxWordSz] at *
      omega
    have hempty : Readable score board n word (row, col) = ∅ := readable_no_word (hlong (by simp))
    rw [findBestWordAux]
    split
    · exact champion_none hempty
    · simp only [hlong le_rfl]
      exact champion_none hempty
  | succ room ih =>
    rw [findBestWordAux]
    split
    case isTrue hout =>
      apply champion_none
      apply readable_outside
      simp only [Inside]
      omega
    case isFalse hin =>
      have hinside : Inside n (row, col) := by
        simp only [Inside]
        omega
      by_cases hword : score (word ++ [board row col]) = -1
      · simp only [hword, if_true]
        exact champion_none (readable_no_word hword)
      · simp only [hword, if_false]
        rw [readable_word hinside hword]
        refine (champion_singleton (h.positive hword)).foldl ?_
        rintro ⟨i, j⟩ hs
        obtain ⟨-, hi, hj⟩ := mem_steps.mp hs
        simp only [Inside] at hinside
        refine ih ?_ (by omega) (by omega)
        simp at hroom ⊢
        omega

/-- The words that can be read on the board, such that they and their beginnings are in the
dictionary. -/
def Candidates (score : List Letter → Int32) (board : Board) (n : ℕ) : Set (List Letter) :=
  {word | (∃ cells, cells ≠ [] ∧ List.IsChain Adjacent cells ∧ (∀ c ∈ cells, Inside n c) ∧
    word = cells.map board.letter) ∧ ∀ p, p <+: word → p ≠ [] → score p ≠ -1}

theorem mem_candidates : word ∈ Candidates score board n ↔
    ∃ c, Inside n c ∧ word ∈ Readable score board n [] c := by
  constructor
  · rintro ⟨⟨cells, hne, hchain, hinside, rfl⟩, hwords⟩
    obtain ⟨c, rest, rfl⟩ := List.exists_cons_of_ne_nil hne
    exact ⟨c, hinside c List.mem_cons_self, rest, hchain, hinside, rfl,
      fun p hp hlen => hwords p hp (List.length_pos_iff.mp hlen)⟩
  · rintro ⟨c, -, rest, hchain, hinside, rfl, hwords⟩
    exact ⟨⟨c :: rest, List.cons_ne_nil c rest, hchain, hinside, rfl⟩,
      fun p hp hne => hwords p hp (List.length_pos_iff.mpr hne)⟩

theorem candidates_eq : Candidates score board n =
    ∅ ∪ {word | ∃ cell ∈ cells n, word ∈ Readable score board n [] (cell.1, cell.2)} := by
  ext word
  simp only [mem_candidates, mem_cells, Set.empty_union, Set.mem_ofPred_eq]

theorem champion_findBestWord (h : Scored score) (board : Board) (n : ℕ) :
    ∃ best, Champion score (-1) (Candidates score board n) (findBestWord score board n, best) := by
  rw [candidates_eq]
  refine ⟨_, (champion_none rfl).foldl ?_⟩
  intro cell hcell
  obtain ⟨-, hrow, -, hcol⟩ := mem_cells.mp hcell
  exact champion_findBestWordAux h rfl hrow.le hcol.le

/-! ## The dictionary -/

/-- The scores that the commands give. -/
def Op.Legal : Op → Prop
  | .insertWord word score => word.length < maxWordSz ∧ -1 < score.val
  | .deleteWord _ => True
  | .wordScore _ => True

theorem Command.legal (command : Command) : ∀ op ∈ command.ops, op.Legal := by
  cases command with
  | insert score word =>
    simpa [Command.ops, Op.Legal] using ⟨word.property.2, neg_one_lt_ofNat score⟩
  | insertAll score word =>
    simp only [Command.ops, List.mem_append, List.mem_map, List.mem_singleton]
    rintro op (⟨i, -, rfl⟩ | rfl)
    · exact ⟨lt_of_le_of_lt (List.length_take_le' _ _) word.property.2, by decide⟩
    · exact ⟨word.property.2, neg_one_lt_ofNat score⟩
  | remove word => simp [Command.ops, Op.Legal]

theorem Op.Legal.scored {op : Op} (hop : op.Legal) {value : Int32}
    (h : op.scores word = some value) (hvalue : value ≠ -1) :
    -1 < value ∧ word.length < maxWordSz := by
  cases op with
  | insertWord written score =>
    obtain ⟨rfl, ⟨⟩⟩ := Option.ite_none_right_eq_some.mp h
    exact ⟨hop.2, hop.1⟩
  | deleteWord deleted =>
    obtain ⟨-, ⟨⟩⟩ := Option.ite_none_right_eq_some.mp h
    exact absurd rfl hvalue
  | wordScore probe => cases h

theorem scored_step {t : TrieNode} {op : Op} (ht : Valid t) (h : Scored (wordScore · t))
    (hop : op.Legal) : Scored (wordScore · (step t op).1) := by
  have hboth : ∀ {word}, wordScore word (step t op).1 ≠ -1 →
      -1 < wordScore word (step t op).1 ∧ word.length < maxWordSz := by
    intro word hword
    rw [wordScore_step ht op] at hword ⊢
    cases hscores : op.scores word with
    | none =>
      rw [hscores] at hword
      exact ⟨h.positive hword, h.short hword⟩
    | some value =>
      rw [hscores] at hword
      exact hop.scored hscores hword
  exact ⟨fun hword => (hboth hword).1, fun hword => (hboth hword).2⟩

theorem scored_dictionary (commands : List Command) :
    Scored (wordScore · (dictionary commands)) := by
  have hlegal : Admits step (fun _ op => op.Legal) newTrie (commands.flatMap Command.ops) := by
    apply admits_iff.mpr
    intro before op after hsplit
    have hop : op ∈ commands.flatMap Command.ops := by simp [hsplit]
    obtain ⟨command, -, hop⟩ := List.mem_flatMap.mp hop
    exact command.legal op hop
  refine (run_invariant (fun t => Valid t ∧ Scored (wordScore · t)) ?_ ⟨valid_newTrie, ?_⟩ hlegal).2
  · intro t op ht hop
    exact ⟨ht.1.step op, scored_step ht.1 ht.2 hop⟩
  · constructor <;> intro word hword <;> exact absurd (wordScore_newNode word) hword

end InterviewQuestions.BoggleBoard

import InterviewQuestions.Library.Arithmetic
import InterviewQuestions.Library.Backtracking
import InterviewQuestions.Library.CString
import InterviewQuestions.Library.Recording
import Mathlib.Logic.Function.Basic

/-! The two versions of `recursion_dp/tokenize_words`, for any dictionary. The outer `Option` is
`none` where C leaves the behaviour undefined: beyond a buffer or an `int`. -/
namespace InterviewQuestions.TokenizeWords

open Library

/-! ## `solution.c` -/

namespace Recursive

/-- `sprintf(buffer, "%s", text)` from the place `start` of the buffer on. The number of
characters is an `int`. -/
def sprintf (text : List UInt8) (start : ℕ) (buffer : List UInt8) : Option (List UInt8) :=
  if start + text.length + 1 ≤ buffer.length ∧ text.length < 2 ^ 31 then
    some (buffer.take start ++ text ++ 0 :: buffer.drop (start + text.length + 1))
  else none

variable (dictFind : List UInt8 → Bool)

/-- The value returned and the buffer. The recursion is no deeper than the string is long. -/
def tokenizeWordsAux : ℕ → List UInt8 → ℕ → List UInt8 → Option (Bool × List UInt8)
  | 0, _, _, _ => none
  | fuel + 1, str, start, buffer =>
      if str = [] then some (true, buffer)
      else
        Backtracking.tries
          (fun i buffer =>
            if dictFind (str.take i) then
              (sprintf (str.take i ++ [32]) start buffer).bind fun buffer =>
                tokenizeWordsAux fuel (str.drop i) (start + i + 1) buffer
            else some (false, buffer))
          (List.range' 1 str.length) buffer

/-- `junk` is what the allocated buffer holds. `strlen` needs a `NUL` in the buffer. -/
def tokenizeWords (junk : ℕ → UInt8) (str : CString) : Option (Option (List UInt8)) :=
  if str.bytes = [] then some none
  else
    let buffer := (List.range (2 * str.length)).map junk
    match tokenizeWordsAux dictFind (str.length + 1) str.bytes 0 buffer with
    | none => none
    | some (false, _) => some none
    | some (true, buffer) =>
        if 0 ∈ buffer then
          let resLen := (CString.ofBuffer buffer).length
          let buffer := if 0 < resLen then buffer.set (resLen - 1) 0 else buffer
          some (some (CString.ofBuffer buffer).bytes)
        else none

/-! What the same search writes, whatever the size of the buffer. From where to where each
`sprintf` writes is recorded, with its `NUL`. -/

/-- The loop, where `rest` goes on after a word. -/
def tryWrites (str : List UInt8) (start : ℕ) (rest : ℕ → Recording (ℕ × ℕ) Unit Bool) :
    List ℕ → Recording (ℕ × ℕ) Unit Bool
  | [] => return false
  | i :: lengths =>
      if dictFind (str.take i) then
        if i + 1 < 2 ^ 31 then do
          Recording.note (start, start + i + 2)
          if ← rest i then return true else tryWrites str start rest lengths
        else Recording.stop ()
      else tryWrites str start rest lengths

def writesAux : ℕ → List UInt8 → ℕ → Recording (ℕ × ℕ) Unit Bool
  | 0, _, _ => Recording.stop ()
  | fuel + 1, str, start =>
      if str = [] then return true
      else
        tryWrites dictFind str start (fun i => writesAux fuel (str.drop i) (start + i + 1))
          (List.range' 1 str.length)

def writes (str : CString) : Recording (ℕ × ℕ) Unit Bool :=
  writesAux dictFind (str.length + 1) str.bytes 0

end Recursive

/-! ## `solution_dp.cpp` -/

namespace Dp

variable (dictFind : List UInt8 → Bool) (str : List UInt8)

/-- A single space marks a suffix without a solution. -/
abbrev Table := ℕ → List UInt8

/-- The body of the two loops. -/
def entry (i : ℕ) (dp : Table) (j : ℕ) : Table :=
  let w := (str.drop i).take (j - i)
  if dictFind w && dp j ≠ [32] then Function.update dp i (w ++ [32] ++ dp j) else dp

/-- The loop over `i`, down from its argument less one. -/
def rows (len : ℤ) : ℕ → Table → Option Table
  | 0, dp => some dp
  | i + 1, dp =>
      (Arithmetic.int (len + 1)).bind fun stop =>
        rows len i ((List.range' (i + 1) (stop.toNat - (i + 1))).foldl (entry dictFind str i) dp)

/-- What is written to `out`, if it returns true. -/
def tokenizeWords : Option (Option (List UInt8)) := do
  let dp : Table := Function.update (fun _ => [32]) str.length []
  let len := (str.length : ℤ).bmod (2 ^ 32)
  let last ← Arithmetic.int (len - 1)
  let dp ← rows dictFind str len (last + 1).toNat dp
  if dp 0 ≠ [32] then
    let out := dp 0
    return some (if 0 < out.length then out.dropLast else out)
  else return none

end Dp

end InterviewQuestions.TokenizeWords

/-! What the backtracking search finds, and what it writes to the buffer on the way. -/
namespace InterviewQuestions.TokenizeWords

open Library Backtracking

variable {dictFind : List UInt8 → Bool} {str w buffer buffer' front : List UInt8}
  {ws : List (List UInt8)} {start i fuel : ℕ}

/-! ## Words in a row -/

/-- The string is the concatenation of these dictionary words. -/
structure Segments (dictFind : List UInt8 → Bool) (str : List UInt8) (ws : List (List UInt8)) :
    Prop where
  words : ∀ w ∈ ws, w ≠ [] ∧ dictFind w = true
  joins : ws.flatten = str

def Concatenation (dictFind : List UInt8 → Bool) (str : List UInt8) : Prop :=
  ∃ ws, Segments dictFind str ws

/-- A space after each word. -/
def spaced (ws : List (List UInt8)) : List UInt8 := (ws.map (· ++ [32])).flatten

theorem spaced_cons (w : List UInt8) (ws : List (List UInt8)) :
    spaced (w :: ws) = w ++ [32] ++ spaced ws := by
  rw [spaced, List.map_cons, List.flatten_cons, spaced]

theorem Segments.nil : Segments dictFind [] [] :=
  ⟨fun _ hw => absurd hw List.not_mem_nil, rfl⟩

theorem Segments.cons (hi : 0 < i) (hle : i ≤ str.length) (hword : dictFind (str.take i) = true)
    (h : Segments dictFind (str.drop i) ws) : Segments dictFind str (str.take i :: ws) := by
  constructor
  · intro w hw
    rcases List.mem_cons.mp hw with rfl | hw
    · refine ⟨?_, hword⟩
      apply List.ne_nil_of_length_pos
      rw [List.length_take]
      omega
    · exact h.words w hw
  · rw [List.flatten_cons, h.joins, List.take_append_drop]

theorem Segments.uncons (h : Segments dictFind str (w :: ws)) :
    0 < w.length ∧ w.length ≤ str.length ∧ str.take w.length = w ∧ dictFind w = true ∧
      Segments dictFind (str.drop w.length) ws := by
  obtain ⟨hne, hword⟩ := h.words w List.mem_cons_self
  have hstr := h.joins
  rw [List.flatten_cons] at hstr
  subst hstr
  refine ⟨List.length_pos_of_ne_nil hne, ?_, List.take_left, hword, ?_, ?_⟩
  · rw [List.length_append]
    exact Nat.le_add_right _ _
  · exact fun x hx => h.words x (List.mem_cons_of_mem w hx)
  · rw [List.drop_left]

/-- The lengths that the loop tries for the first word. -/
theorem concatenation_iff (hne : str ≠ []) : Concatenation dictFind str ↔
    ∃ i ∈ List.range' 1 str.length, dictFind (str.take i) = true ∧
      Concatenation dictFind (str.drop i) := by
  constructor
  · rintro ⟨ws, h⟩
    cases ws with
    | nil => exact absurd h.joins.symm hne
    | cons w ws =>
      obtain ⟨hpos, hle, htake, hword, hrest⟩ := h.uncons
      refine ⟨w.length, List.mem_range'_1.mpr ⟨hpos, by omega⟩, ?_, ws, hrest⟩
      rw [htake]
      exact hword
  · rintro ⟨i, hi, hword, ws, hrest⟩
    obtain ⟨hpos, hle⟩ := List.mem_range'_1.mp hi
    exact ⟨str.take i :: ws, hrest.cons hpos (by omega) hword⟩

theorem Segments.spaced_ne_nil (h : Segments dictFind str ws) (hne : str ≠ []) :
    spaced ws ≠ [] := by
  cases ws with
  | nil => exact absurd h.joins.symm hne
  | cons w ws =>
    rw [spaced_cons]
    simp

/-! ## Long words -/

/-- No word that follows on dictionary words is too long for `sprintf`. -/
def Printable (dictFind : List UInt8 → Bool) (str : List UInt8) : Prop :=
  ∀ (ws : List (List UInt8)) w rest, (∀ x ∈ ws, x ≠ [] ∧ dictFind x = true) →
    str = ws.flatten ++ w ++ rest → w ≠ [] →
    dictFind w = true → w.length + 1 < 2 ^ 31

theorem printable_of_length (h : str.length + 1 < 2 ^ 31) : Printable dictFind str := by
  rintro ws w rest _ rfl _ _
  simp only [List.length_append] at h
  omega

theorem Printable.take (h : Printable dictFind str) (hi : 0 < i) (hle : i ≤ str.length)
    (hword : dictFind (str.take i) = true) : i + 1 < 2 ^ 31 := by
  have hlength : (str.take i).length = i := by
    rw [List.length_take]
    omega
  have hne : str.take i ≠ [] := List.ne_nil_of_length_pos (by omega)
  have hshort := h [] (str.take i) (str.drop i) (fun x hx => by cases hx) (by simp) hne hword
  omega

theorem Printable.drop (h : Printable dictFind str) (hi : 0 < i) (hle : i ≤ str.length)
    (hword : dictFind (str.take i) = true) : Printable dictFind (str.drop i) := by
  intro ws w rest hws hsplit hne hw
  have hfirst : str.take i ≠ [] := by
    apply List.ne_nil_of_length_pos
    rw [List.length_take]
    omega
  refine h (str.take i :: ws) w rest (List.forall_mem_cons.mpr ⟨⟨hfirst, hword⟩, hws⟩) ?_ hne hw
  rw [List.flatten_cons, List.append_assoc, List.append_assoc, ← List.append_assoc ws.flatten,
    ← hsplit, List.take_append_drop]

theorem printable_of_take (h : ∀ i ∈ List.range' 1 str.length, dictFind (str.take i) = true →
    i + 1 < 2 ^ 31 ∧ Printable dictFind (str.drop i)) : Printable dictFind str := by
  intro ws w rest hws hsplit hne hw
  have htry : ∀ x tail, x ≠ [] → str = x ++ tail → dictFind x = true →
      x.length + 1 < 2 ^ 31 ∧ Printable dictFind tail := by
    rintro x tail hx rfl hword
    have hpos := List.length_pos_of_ne_nil hx
    have hmem : x.length ∈ List.range' 1 (x ++ tail).length := by
      rw [List.mem_range'_1, List.length_append]
      omega
    have hboth := h x.length hmem (by rwa [List.take_left])
    rwa [List.drop_left] at hboth
  cases ws with
  | nil => exact (htry w rest hne (by simpa using hsplit) hw).1
  | cons x ws =>
    obtain ⟨⟨hx, hword⟩, hws⟩ := List.forall_mem_cons.mp hws
    have htail := htry x (ws.flatten ++ w ++ rest) hx (by simpa using hsplit) hword
    exact htail.2 ws w rest hws rfl hne hw

/-! ## Room in the buffer -/

/-- There is one byte more than the two for each letter, or a letter that is no word. -/
def Room (dictFind : List UInt8 → Bool) (str : List UInt8) (space : ℕ) : Prop :=
  2 * str.length < space ∨ 2 * str.length ≤ space ∧ ∃ c ∈ str, dictFind [c] = false

theorem take_one_letter {c : UInt8} (hnone : dictFind [c] = false) :
    ¬ dictFind ((c :: str).take 1) = true := by
  rw [List.take_one, List.head?_cons, Option.toList_some, hnone]
  decide

theorem Room.sprintf {space : ℕ} (h : Room dictFind str space) (hi : 0 < i) (hle : i ≤ str.length)
    (hword : dictFind (str.take i) = true) : i + 2 ≤ space := by
  rcases h with hroom | ⟨hroom, c, hc, hnone⟩
  · omega
  · by_contra hlt
    have hone : str.length = 1 := by omega
    obtain ⟨d, rfl⟩ := List.length_eq_one_iff.mp hone
    obtain rfl : i = 1 := by
      rw [List.length_singleton] at hle
      omega
    obtain rfl := List.mem_singleton.mp hc
    exact take_one_letter hnone hword

theorem Room.drop {space : ℕ} (h : Room dictFind str space) (hi : 0 < i) (hle : i ≤ str.length)
    (hword : dictFind (str.take i) = true) : Room dictFind (str.drop i) (space - (i + 1)) := by
  have hlength : (str.drop i).length = str.length - i := List.length_drop
  rcases h with hroom | ⟨hroom, c, hc, hnone⟩
  · exact Or.inl (by omega)
  · by_cases hone : i = 1
    · subst hone
      refine Or.inr ⟨by omega, c, ?_, hnone⟩
      cases str with
      | nil => cases hc
      | cons d str =>
        rcases List.mem_cons.mp hc with rfl | hc
        · exact absurd hword (take_one_letter hnone)
        · exact hc
    · exact Or.inl (by omega)

theorem sprintf_append (text : List UInt8) (hfront : front <+: buffer)
    (hroom : front.length + text.length + 1 ≤ buffer.length) (hlength : text.length < 2 ^ 31) :
    ∃ rest, Recursive.sprintf text front.length buffer = some (front ++ text ++ 0 :: rest) ∧
      (front ++ text ++ 0 :: rest).length = buffer.length := by
  refine ⟨buffer.drop (front.length + text.length + 1), ?_, ?_⟩
  · rw [Recursive.sprintf, if_pos ⟨hroom, hlength⟩, ← List.prefix_iff_eq_take.mp hfront]
  · simp only [List.length_append, List.length_cons, List.length_drop]
    omega

theorem sprintf_eq_some {text : List UInt8} {next : List UInt8}
    (h : Recursive.sprintf text start buffer = some next) :
    text.length < 2 ^ 31 ∧ next.length = buffer.length := by
  rw [Recursive.sprintf] at h
  split at h
  case isTrue hfits =>
    obtain rfl := Option.some.inj h
    have hroom := hfits.1
    refine ⟨hfits.2, ?_⟩
    simp only [List.length_append, List.length_take, List.length_cons, List.length_drop]
    omega
  case isFalse => cases h

/-! ## The search -/

/-- The words that were found stand after what was there, with a `NUL` after them. -/
def Written (dictFind : List UInt8 → Bool) (front str buffer : List UInt8) : Prop :=
  ∃ ws rest, Segments dictFind str ws ∧ buffer = front ++ spaced ws ++ 0 :: rest

/-- What an attempt leaves to the next one. -/
def Kept (front : List UInt8) (space : ℕ) (buffer : List UInt8) : Prop :=
  front <+: buffer ∧ buffer.length = front.length + space

theorem Written.cons (hi : 0 < i) (hle : i ≤ str.length) (hword : dictFind (str.take i) = true)
    (h : Written dictFind (front ++ (str.take i ++ [32])) (str.drop i) buffer) :
    Written dictFind front str buffer := by
  obtain ⟨ws, rest, hws, rfl⟩ := h
  refine ⟨str.take i :: ws, rest, hws.cons hi hle hword, ?_⟩
  simp [spaced_cons]

/-- The search decides whether the string is a concatenation of words. -/
theorem tokenizeWordsAux_decides {space : ℕ} (hfuel : str.length < fuel)
    (hprintable : Printable dictFind str) (hroom : Room dictFind str space)
    (hkept : Kept front space buffer) (hnul : str = [] → ∃ rest, buffer = front ++ 0 :: rest) :
    Decides (Written dictFind front str) (Kept front space) (Concatenation dictFind str)
      (Recursive.tokenizeWordsAux dictFind fuel str front.length buffer) := by
  induction fuel generalizing str front buffer space with
  | zero => omega
  | succ fuel ih =>
    rw [Recursive.tokenizeWordsAux]
    by_cases hne : str = []
    · obtain ⟨rest, hrest⟩ := hnul hne
      rw [if_pos hne]
      exact Or.inl ⟨buffer, rfl, [], rest, hne ▸ Segments.nil, by rw [hrest]; simp [spaced]⟩
    · rw [if_neg hne]
      refine (tries_decides _ _ ?_ hkept).congr (concatenation_iff hne).symm
      intro i hi buffer hkept
      obtain ⟨hpos, hlt⟩ := List.mem_range'_1.mp hi
      have hle : i ≤ str.length := by omega
      cases hword : dictFind (str.take i) with
      | false =>
        rw [if_neg (by decide)]
        exact Or.inr ⟨buffer, rfl, hkept, fun hboth => by cases hboth.1⟩
      | true =>
        have hspace := hroom.sprintf hpos hle hword
        have hshort := hprintable.take hpos hle hword
        have hlength : (str.take i ++ [32]).length = i + 1 := by
          rw [List.length_append, List.length_take, List.length_singleton]
          omega
        obtain ⟨rest, hprint, hsize⟩ := sprintf_append (str.take i ++ [32]) hkept.1
          (by rw [hlength, hkept.2]; omega) (by omega)
        have hstart : front.length + i + 1 = (front ++ (str.take i ++ [32])).length := by
          rw [List.length_append, hlength]
          omega
        have hless : (str.drop i).length < fuel := by
          rw [List.length_drop]
          omega
        have hkept' : Kept (front ++ (str.take i ++ [32])) (space - (i + 1))
            (front ++ (str.take i ++ [32]) ++ 0 :: rest) := by
          refine ⟨List.prefix_append _ _, ?_⟩
          rw [hsize, hkept.2, List.length_append, hlength]
          omega
        have hinner := ih hless (hprintable.drop hpos hle hword) (hroom.drop hpos hle hword) hkept'
          fun _ => ⟨rest, rfl⟩
        rw [if_pos rfl, hprint, Option.bind_some, hstart]
        rcases hinner with ⟨b, hb, hwritten⟩ | ⟨b, hb, hback, hnot⟩
        · exact Or.inl ⟨b, hb, hwritten.cons hpos hle hword⟩
        · refine Or.inr ⟨b, hb, ⟨(List.prefix_append _ _).trans hback.1, ?_⟩, fun h => hnot h.2⟩
          rw [hback.2, List.length_append, hlength]
          omega

/-- A search that fails has tried all words that follow on words. -/
theorem tokenizeWordsAux_false
    (h : Recursive.tokenizeWordsAux dictFind fuel str start buffer = some (false, buffer')) :
    ¬ Concatenation dictFind str ∧ Printable dictFind str := by
  induction fuel generalizing str start buffer buffer' with
  | zero => cases h
  | succ fuel ih =>
    rw [Recursive.tokenizeWordsAux] at h
    by_cases hne : str = []
    · rw [if_pos hne] at h
      cases h
    · rw [if_neg hne] at h
      have hall : ∀ i ∈ List.range' 1 str.length, dictFind (str.take i) = true →
          i + 1 < 2 ^ 31 ∧ ¬ Concatenation dictFind (str.drop i) ∧
            Printable dictFind (str.drop i) := by
        refine (tries_false (fun _ => True) _ (fun i hi b b' _ hattempt => ?_) trivial h).2
        refine ⟨trivial, fun hword => ?_⟩
        obtain ⟨hpos, hlt⟩ := List.mem_range'_1.mp hi
        rw [if_pos hword] at hattempt
        obtain ⟨next, hprint, hrest⟩ := Option.bind_eq_some_iff.mp hattempt
        have hlength := (sprintf_eq_some hprint).1
        rw [List.length_append, List.length_take, List.length_singleton] at hlength
        exact ⟨by omega, ih hrest⟩
      constructor
      · rw [concatenation_iff hne]
        rintro ⟨i, hi, hword, hrest⟩
        exact (hall i hi hword).2.1 hrest
      · exact printable_of_take fun i hi hword => ⟨(hall i hi hword).1, (hall i hi hword).2.2⟩

/-- When all letters are words, the words found first are the letters, for which two bytes each
are not enough. -/
theorem tokenizeWordsAux_letters (hne : str ≠ []) (hall : ∀ c ∈ str, dictFind [c] = true)
    (hlength : buffer.length = start + 2 * str.length) :
    Recursive.tokenizeWordsAux dictFind fuel str start buffer = none := by
  induction str generalizing fuel start buffer with
  | nil => exact absurd rfl hne
  | cons c str ih =>
    cases fuel with
    | zero => rfl
    | succ fuel =>
      rw [List.length_cons] at hlength
      rw [Recursive.tokenizeWordsAux, if_neg hne, List.length_cons, List.range'_succ]
      apply tries_cons_none
      have hfirst : dictFind ((c :: str).take 1) = true := hall c List.mem_cons_self
      rw [if_pos hfirst]
      by_cases hend : str = []
      · subst hend
        have hfull : ¬ (start + ([c] ++ [32]).length + 1 ≤ buffer.length ∧
            ([c] ++ [32]).length < 2 ^ 31) := by
          intro hfits
          have hroom := hfits.1
          simp at hroom hlength
          omega
        have hprint : Recursive.sprintf ([c] ++ [32]) start buffer = none := if_neg hfull
        exact hprint ▸ rfl
      · rw [Option.bind_eq_none_iff]
        intro next hprint
        have hsize := (sprintf_eq_some hprint).2
        exact ih hend (fun d hd => hall d (List.mem_cons_of_mem c hd)) (by rw [hsize]; omega)

end InterviewQuestions.TokenizeWords

import InterviewQuestions.Library.Backtracking
import Mathlib.Data.List.Nodup
import Mathlib.Logic.Function.Basic

/-! `recursion_dp/match_str/solution.cpp`. The offsets stand for what is left of the strings. -/
namespace InterviewQuestions.MatchStr

open Library Backtracking

/-- `map<char, string>` -/
abbrev Matches := UInt8 → Option (List UInt8)

/-- One turn of the loop; the variable is `vars[curr_var]`. -/
def tryWord (aux : List UInt8 → Matches → Option (Bool × Matches)) (var : UInt8)
    (str : List UInt8) (wordSz : ℕ) (found : Matches) : Option (Bool × Matches) :=
  let currWord := str.take wordSz
  match found var with
  | some word => if word ≠ currWord then some (false, found) else aux (str.drop wordSz) found
  | none =>
      match aux (str.drop wordSz) (Function.update found var (some currWord)) with
      | some (false, after) => some (false, Function.update after var none)
      | result => result

def findMatchAux : List UInt8 → List UInt8 → Matches → Option (Bool × Matches)
  | [], str, found => some (str.length == 0, found)
  | var :: vars, str, found =>
      if str.length < vars.length + 1 then some (false, found)
      else tries (tryWord (findMatchAux vars) var str)
        (List.range' 1 (str.length - vars.length)) found

def findMatch (str pattern : List UInt8) : Option (Bool × Matches) :=
  findMatchAux pattern str fun _ => none

/-! ## Words for the variables -/

/-- Words for all variables, with those that are found already, that spell the string. -/
structure Spells (found : Matches) (pattern str : List UInt8) (word : UInt8 → List UInt8) :
    Prop where
  keeps : ∀ c w, found c = some w → word c = w
  nonempty : ∀ c ∈ pattern, word c ≠ []
  spelled : pattern.flatMap word = str

/-- The words of the variables, and no others, have been added. -/
structure Solved (found : Matches) (pattern str : List UInt8) (after : Matches) : Prop where
  mono : ∀ c w, found c = some w → after c = some w
  known : ∀ c, (after c).isSome = true ↔ (found c).isSome = true ∨ c ∈ pattern
  spells : Spells found pattern str fun c => (after c).getD []

variable {found after : Matches} {pattern vars str : List UInt8} {var : UInt8} {wordSz : ℕ}
  {word : UInt8 → List UInt8}

theorem spells_nil :
    Spells found [] str word ↔ (∀ c w, found c = some w → word c = w) ∧ str = [] := by
  constructor
  · intro h
    exact ⟨h.keeps, h.spelled.symm⟩
  · intro h
    exact ⟨h.1, by simp, h.2.symm⟩

/-- The word of the first variable comes first. -/
theorem spells_cons : Spells found (var :: vars) str word ↔
    word var ≠ [] ∧ str.take (word var).length = word var ∧
      Spells found vars (str.drop (word var).length) word := by
  constructor
  · intro h
    have hspelled := h.spelled
    rw [List.flatMap_cons] at hspelled
    rw [← hspelled, List.take_left, List.drop_left]
    exact ⟨h.nonempty var List.mem_cons_self, rfl, h.keeps,
      fun c hc => h.nonempty c (List.mem_cons_of_mem var hc), rfl⟩
  · intro h
    have ⟨hvar, htake, hrest⟩ := h
    refine ⟨hrest.keeps, List.forall_mem_cons.mpr ⟨hvar, hrest.nonempty⟩, ?_⟩
    rw [List.flatMap_cons, hrest.spelled]
    nth_rewrite 1 [← htake]
    exact List.take_append_drop _ str

/-- No word is empty. -/
theorem Spells.length_le (h : Spells found pattern str word) : pattern.length ≤ str.length := by
  induction pattern generalizing str with
  | nil => exact Nat.zero_le _
  | cons var vars ih =>
    have ⟨hvar, htake, hrest⟩ := spells_cons.mp h
    have hvars := ih hrest
    have hpos := List.length_pos_of_ne_nil hvar
    have hlength := congrArg List.length htake
    rw [List.length_take] at hlength
    rw [List.length_drop] at hvars
    rw [List.length_cons]
    omega

theorem spells_update (hnone : found var = none) (w : List UInt8) :
    Spells (Function.update found var (some w)) pattern str word ↔
      Spells found pattern str word ∧ word var = w := by
  constructor
  · intro h
    refine ⟨⟨fun c w' hc => ?_, h.nonempty, h.spelled⟩, ?_⟩
    · apply h.keeps
      rw [Function.update_of_ne _, hc]
      rintro rfl
      rw [hnone] at hc
      cases hc
    · apply h.keeps
      rw [Function.update_self]
  · intro ⟨h, hvar⟩
    refine ⟨fun c w' hc => ?_, h.nonempty, h.spelled⟩
    by_cases heq : c = var
    · rw [heq, Function.update_self, Option.some.injEq] at hc
      rw [heq, hvar, hc]
    · rw [Function.update_of_ne heq] at hc
      exact h.keeps c w' hc

/-- The word of a variable, in front of what the others spell. -/
theorem Solved.cons (hword : 0 < wordSz) (hle : wordSz ≤ str.length)
    (hvar : ∀ w, found var = some w → w = str.take wordSz)
    (h : Solved (Function.update found var (some (str.take wordSz))) vars (str.drop wordSz) after) :
    Solved found (var :: vars) str after := by
  have hafter : after var = some (str.take wordSz) := by
    apply h.mono
    rw [Function.update_self]
  have hlength : (str.take wordSz).length = wordSz := by
    rw [List.length_take]
    omega
  have hmono (c : UInt8) (w : List UInt8) (hc : found c = some w) : after c = some w := by
    by_cases heq : c = var
    · rw [heq] at hc ⊢
      rw [hafter, hvar w hc]
    · apply h.mono
      rw [Function.update_of_ne heq, hc]
  constructor
  · exact hmono
  · intro c
    rw [h.known, List.mem_cons]
    by_cases heq : c = var
    · simp [heq]
    · simp [heq]
  · rw [spells_cons]
    simp only [hafter, Option.getD_some, hlength]
    refine ⟨?_, trivial, ⟨fun c w hc => ?_, h.spells.nonempty, h.spells.spelled⟩⟩
    · intro hnil
      rw [hnil, List.length_nil] at hlength
      omega
    · rw [hmono c w hc, Option.getD_some]

/-! ## The search -/

theorem tryWord_decides (hword : 0 < wordSz) (hle : wordSz ≤ str.length)
    {aux : List UInt8 → Matches → Option (Bool × Matches)}
    (haux : ∀ str found, Decides (Solved found vars str) (· = found)
      (∃ word, Spells found vars str word) (aux str found)) :
    Decides (Solved found (var :: vars) str) (· = found)
      (∃ word, Spells found (var :: vars) str word ∧ (word var).length = wordSz)
      (tryWord aux var str wordSz found) := by
  have hlength : (str.take wordSz).length = wordSz := by
    rw [List.length_take]
    omega
  -- the word has to be what the string has here
  have hspells (word : UInt8 → List UInt8) :
      Spells found (var :: vars) str word ∧ (word var).length = wordSz ↔
        Spells found vars (str.drop wordSz) word ∧ word var = str.take wordSz := by
    rw [spells_cons]
    constructor
    · intro ⟨⟨_, htake, hrest⟩, hsize⟩
      rw [hsize] at htake hrest
      exact ⟨hrest, htake.symm⟩
    · intro ⟨hrest, hvar⟩
      rw [hvar, hlength]
      refine ⟨⟨fun hnil => ?_, rfl, hrest⟩, rfl⟩
      rw [hnil] at hlength
      exact absurd hlength (Nat.ne_of_lt hword)
  simp only [hspells]
  unfold tryWord
  cases hfound : found var with
  | some w =>
    simp only
    split
    case isTrue hne =>
      refine Or.inr ⟨found, rfl, rfl, fun ⟨word, hrest, hvar⟩ => hne ?_⟩
      rw [← hrest.keeps var w hfound, hvar]
    case isFalse heq =>
      have heq := not_not.mp heq
      have hupdate : Function.update found var (some (str.take wordSz)) = found := by
        rw [Function.update_eq_self_iff, hfound, heq]
      have hcons {after : Matches} (h : Solved found vars (str.drop wordSz) after) :
          Solved found (var :: vars) str after := by
        apply Solved.cons hword hle
        · intro w' hw'
          rw [hfound, Option.some.injEq] at hw'
          rw [← hw', heq]
        · rwa [hupdate]
      apply ((haux (str.drop wordSz) found).imp fun _ => hcons).congr
      constructor
      · intro ⟨word, hrest⟩
        exact ⟨word, hrest, (hrest.keeps var w hfound).trans heq⟩
      · intro ⟨word, hrest, _⟩
        exact ⟨word, hrest⟩
  | none =>
    simp only
    have hrest := haux (str.drop wordSz) (Function.update found var (some (str.take wordSz)))
    simp only [spells_update hfound] at hrest
    rcases hrest with ⟨after, hafter, hsolved⟩ | ⟨after, hafter, heq, hnot⟩
    · rw [hafter]
      refine Or.inl ⟨after, rfl, hsolved.cons hword hle fun w hw => ?_⟩
      rw [hfound] at hw
      cases hw
    · rw [hafter]
      refine Or.inr ⟨_, rfl, ?_, hnot⟩
      rw [heq, Function.update_idem, ← hfound, Function.update_eq_self]

theorem findMatchAux_decides (pattern str : List UInt8) (found : Matches) :
    Decides (Solved found pattern str) (· = found) (∃ word, Spells found pattern str word)
      (findMatchAux pattern str found) := by
  induction pattern generalizing str found with
  | nil =>
    rw [findMatchAux]
    cases str with
    | nil =>
      refine Or.inl ⟨found, rfl, fun _ _ => id, by simp, ?_⟩
      rw [spells_nil]
      exact ⟨fun c w hc => by rw [hc, Option.getD_some], rfl⟩
    | cons b rest =>
      refine Or.inr ⟨found, rfl, rfl, fun ⟨word, h⟩ => ?_⟩
      cases (spells_nil.mp h).2
  | cons var vars ih =>
    rw [findMatchAux]
    split
    case isTrue hshort =>
      refine Or.inr ⟨found, rfl, rfl, fun ⟨word, h⟩ => ?_⟩
      have hle := h.length_le
      rw [List.length_cons] at hle
      omega
    case isFalse hlong =>
      have hsizes : ∀ wordSz ∈ List.range' 1 (str.length - vars.length), ∀ t, t = found →
          Decides (Solved found (var :: vars) str) (· = found)
            (∃ word, Spells found (var :: vars) str word ∧ (word var).length = wordSz)
            (tryWord (findMatchAux vars) var str wordSz t) := by
        intro wordSz hsize t ht
        rw [List.mem_range'_1] at hsize
        rw [ht]
        exact tryWord_decides (by omega) (by omega) ih
      apply (tries_decides _ _ hsizes rfl).congr
      constructor
      · intro ⟨_, _, word, h, _⟩
        exact ⟨word, h⟩
      · intro ⟨word, h⟩
        have ⟨hvar, htake, hrest⟩ := spells_cons.mp h
        have hpos := List.length_pos_of_ne_nil hvar
        have hvars := hrest.length_le
        rw [List.length_drop] at hvars
        have hlength := congrArg List.length htake
        rw [List.length_take] at hlength
        exact ⟨(word var).length, List.mem_range'_1.mpr (by omega), word, h, rfl⟩

/-- A match is found exactly if there are words for the letters of the pattern, none of them empty,
that spell the string. The map has then such words, and none for other letters. -/
theorem find_match (str pattern : List UInt8) :
    ∃ found result, findMatch str pattern = some (found, result) ∧
      (found = true ↔ ∃ word : UInt8 → List UInt8,
        (∀ c ∈ pattern, word c ≠ []) ∧ pattern.flatMap word = str) ∧
      (found = true → (∀ c, (result c).isSome = true ↔ c ∈ pattern) ∧
        (∀ c ∈ pattern, result c ≠ some []) ∧
        (pattern.flatMap fun c => (result c).getD []) = str) ∧
      (found = false → ∀ c, result c = none) := by
  have hdecides := findMatchAux_decides pattern str fun _ => none
  have hspells : (∃ word, Spells (fun _ => none) pattern str word) ↔
      ∃ word : UInt8 → List UInt8, (∀ c ∈ pattern, word c ≠ []) ∧ pattern.flatMap word = str := by
    constructor
    · intro ⟨word, h⟩
      exact ⟨word, h.nonempty, h.spelled⟩
    · intro ⟨word, hnonempty, hspelled⟩
      exact ⟨word, nofun, hnonempty, hspelled⟩
  rcases hdecides with ⟨result, hresult, hsolved⟩ | ⟨result, hresult, heq, hnot⟩
  · refine ⟨true, result, hresult, iff_of_true rfl ?_, fun _ => ⟨fun c => ?_, fun c hc heq => ?_,
      hsolved.spells.spelled⟩, nofun⟩
    · exact ⟨_, hsolved.spells.nonempty, hsolved.spells.spelled⟩
    · simp [hsolved.known c]
    · apply hsolved.spells.nonempty c hc
      rw [heq, Option.getD_some]
  · refine ⟨false, result, hresult, iff_of_false Bool.false_ne_true (mt hspells.mpr hnot), nofun,
      fun _ c => ?_⟩
    rw [heq]

end InterviewQuestions.MatchStr

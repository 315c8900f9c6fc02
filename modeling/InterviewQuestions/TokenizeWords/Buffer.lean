import InterviewQuestions.TokenizeWords.Search

/-! The room that the search needs in the buffer, and when it has that room. -/
namespace InterviewQuestions.TokenizeWords

open Library Backtracking Recursive

variable {dictFind : List UInt8 → Bool} {str buffer : List UInt8} {start fuel i : ℕ}

/-! ## A buffer that is large enough -/

/-- What is written ends in the buffer. -/
def Fits (m : Recording (ℕ × ℕ) Unit Bool) (capacity : ℕ) : Prop := ∀ w ∈ m.log, w.2 ≤ capacity

theorem sprintf_word (hi : i ≤ str.length) (start : ℕ) (buffer : List UInt8) :
    (start + i + 2 ≤ buffer.length ∧ i + 1 < 2 ^ 31 ∧ ∃ next,
      Recursive.sprintf (str.take i ++ [32]) start buffer = some next ∧
        next.length = buffer.length) ∨
    ¬ (start + i + 2 ≤ buffer.length ∧ i + 1 < 2 ^ 31) ∧
      Recursive.sprintf (str.take i ++ [32]) start buffer = none := by
  have hlength : (str.take i ++ [32]).length = i + 1 := by
    rw [List.length_append, List.length_take, List.length_singleton]
    omega
  cases hprint : Recursive.sprintf (str.take i ++ [32]) start buffer with
  | none =>
    rw [Recursive.sprintf] at hprint
    split at hprint
    case isTrue => cases hprint
    case isFalse hnot =>
      rw [hlength] at hnot
      exact Or.inr ⟨fun h => hnot ⟨by omega, h.2⟩, rfl⟩
  | some next =>
    have hsize := (sprintf_eq_some hprint).2
    rw [Recursive.sprintf] at hprint
    split at hprint
    case isTrue hfits =>
      rw [hlength] at hfits
      exact Or.inl ⟨by omega, hfits.2, next, rfl, hsize⟩
    case isFalse => cases hprint

theorem tokenizeWordsAux_length {found : Bool} {next : List UInt8}
    (h : tokenizeWordsAux dictFind fuel str start buffer = some (found, next)) :
    next.length = buffer.length := by
  induction fuel generalizing str start buffer found next with
  | zero => cases h
  | succ fuel ih =>
    rw [tokenizeWordsAux] at h
    split at h
    · cases h
      rfl
    · have htrans (b b' b'' : List UInt8) (h : b'.length = b.length)
          (h' : b''.length = b'.length) : b''.length = b.length := h'.trans h
      refine tries_keeps (fun b b' => b'.length = b.length) (fun _ => rfl) htrans
        (fun i _ b found b' hattempt => ?_) h
      split at hattempt
      · obtain ⟨b'', hprint, hrest⟩ := Option.bind_eq_some_iff.mp hattempt
        exact (ih hrest).trans (sprintf_eq_some hprint).2
      · cases hattempt
        rfl

/-- One length is tried with all that follows on it, and then the others. -/
theorem tries_cons_iff {attempt : ℕ → List UInt8 → Option (Bool × List UInt8)} {lengths : List ℕ}
    {m more : Recording (ℕ × ℕ) Unit Bool} {capacity : ℕ} {found : Bool}
    (hm : ∀ b, (attempt i buffer).map Prod.fst = some b ↔ m.out = .ok b ∧ Fits m capacity)
    (hmore : ∀ next, attempt i buffer = some (false, next) →
      ((tries attempt lengths next).map Prod.fst = some found ↔
        more.out = .ok found ∧ Fits more capacity)) :
    (tries attempt (i :: lengths) buffer).map Prod.fst = some found ↔
      (m >>= fun b => if b then pure true else more).out = .ok found ∧
        Fits (m >>= fun b => if b then pure true else more) capacity := by
  cases htried : attempt i buffer with
  | none =>
    rw [tries_cons_none htried]
    refine iff_of_false (by simp) ?_
    rintro ⟨hout, hfits⟩
    cases hm' : m.out with
    | ok b =>
      have hfits' : Fits m capacity := fun w hw => hfits w (Recording.mem_log_bind hw _)
      have hsome := (hm b).mpr ⟨hm', hfits'⟩
      rw [htried] at hsome
      cases hsome
    | error e =>
      rw [Recording.bind_error hm'] at hout
      cases hout
  | some result =>
    obtain ⟨b, next⟩ := result
    obtain ⟨hout, hfits⟩ := (hm b).mp (by rw [htried]; rfl)
    rw [Recording.bind_ok hout]
    cases b with
    | true =>
      rw [tries_cons_true htried]
      simp only [if_true, Option.map_some, Option.some.injEq, Recording.out_pure, Except.ok.injEq]
      refine (and_iff_left ?_).symm
      intro w hw
      rw [Recording.log_pure, List.append_nil] at hw
      exact hfits w hw
    | false =>
      rw [tries_cons_false htried, if_neg Bool.false_ne_true, hmore next htried]
      refine and_congr_right fun _ => ?_
      rw [Fits, Fits, List.forall_mem_append]
      exact (and_iff_right hfits).symm

/-- The loop over the lengths, where `rest` goes on in the buffer and `later` says what it
writes. -/
theorem tries_iff {rest : ℕ → List UInt8 → Option (Bool × List UInt8)}
    {later : ℕ → Recording (ℕ × ℕ) Unit Bool} {lengths : List ℕ} {found : Bool}
    (hrest : ∀ i b found, (rest i b).map Prod.fst = some found ↔
      (later i).out = .ok found ∧ Fits (later i) b.length)
    (hkeeps : ∀ i b found next, rest i b = some (found, next) → next.length = b.length)
    (hlengths : ∀ i ∈ lengths, i ≤ str.length) :
    (tries (fun i b => if dictFind (str.take i) then
        (Recursive.sprintf (str.take i ++ [32]) start b).bind (rest i) else some (false, b))
      lengths buffer).map Prod.fst = some found ↔
      (tryWrites dictFind str start later lengths).out = .ok found ∧
        Fits (tryWrites dictFind str start later lengths) buffer.length := by
  induction lengths generalizing buffer with
  | nil =>
    have hfits : Fits (pure false) buffer.length := fun w hw => by cases hw
    rw [tryWrites, and_iff_left hfits]
    simp [tries]
  | cons i lengths ih =>
    rw [List.forall_mem_cons] at hlengths
    rw [tryWrites]
    by_cases hword : dictFind (str.take i) = true
    · rw [if_pos hword]
      rcases sprintf_word hlengths.1 start buffer with ⟨hroom, hshort, b, hprint, hsize⟩ | hfull
      · rw [if_pos hshort, Recording.note_bind]
        simp only [Fits, List.forall_mem_cons, hroom, true_and]
        refine tries_cons_iff (fun found => ?_) fun next hnext => ?_
        · rw [if_pos hword, hprint, Option.bind_some, hrest, hsize]
        · rw [if_pos hword, hprint, Option.bind_some] at hnext
          have hsize' := (hkeeps i b _ _ hnext).trans hsize
          rw [← hsize']
          exact ih hlengths.2
      · have hnone := hfull.2
        rw [tries_cons_none (by rw [if_pos hword, hnone]; rfl)]
        refine iff_of_false (by simp) ?_
        split
        case isTrue hshort =>
          rw [Recording.note_bind]
          rintro ⟨-, hfits⟩
          have hroom := hfits (start, start + i + 2) List.mem_cons_self
          exact hfull.1 ⟨hroom, hshort⟩
        case isFalse =>
          rintro ⟨hout, -⟩
          cases hout
    · rw [if_neg hword, tries]
      simp only [if_neg hword]
      exact ih hlengths.2

/-- The search with a buffer has a result if all that it writes fits. -/
theorem tokenizeWordsAux_iff {found : Bool} :
    (tokenizeWordsAux dictFind fuel str start buffer).map Prod.fst = some found ↔
      (writesAux dictFind fuel str start).out = .ok found ∧
        Fits (writesAux dictFind fuel str start) buffer.length := by
  induction fuel generalizing str start buffer found with
  | zero => exact iff_of_false (fun h => by cases h) fun h => by cases h.1
  | succ fuel ih =>
    rw [tokenizeWordsAux, writesAux]
    by_cases hne : str = []
    · rw [if_pos hne, if_pos hne]
      have hfits : Fits (pure true) buffer.length := fun w hw => by cases hw
      rw [and_iff_left hfits]
      simp
    · rw [if_neg hne, if_neg hne]
      refine tries_iff (fun i b found => ih) (fun i b found next => tokenizeWordsAux_length) ?_
      intro i hi
      have := List.mem_range'_1.mp hi
      omega

/-! ## Every split that is tried -/

theorem tryWrites_ensures {allowed : ℕ × ℕ → Prop} {rest : ℕ → Recording (ℕ × ℕ) Unit Bool}
    {lengths : List ℕ}
    (h : ∀ i ∈ lengths, dictFind (str.take i) = true →
      allowed (start, start + i + 2) ∧
        (rest i).Ensures allowed (fun _ => True) fun _ => True) :
    (tryWrites dictFind str start rest lengths).Ensures allowed (fun _ => True) fun _ => True := by
  induction lengths with
  | nil => exact Recording.ensures_pure trivial
  | cons i lengths ih =>
    rw [List.forall_mem_cons] at h
    have hmore := ih h.2
    rw [tryWrites]
    split
    case isTrue hword =>
      obtain ⟨hwrite, hrest⟩ := h.1 hword
      split
      case isTrue =>
        refine (Recording.ensures_note hwrite).bind fun _ _ => hrest.bind fun found _ => ?_
        split
        · exact Recording.ensures_pure trivial
        · exact hmore
      case isFalse => exact Recording.ensures_stop trivial
    case isFalse => exact hmore

theorem writesAux_ensures {space : ℕ} (h : Room dictFind str space) :
    (writesAux dictFind fuel str start).Ensures (fun w => w.2 ≤ start + space) (fun _ => True)
      fun _ => True := by
  induction fuel generalizing str start space with
  | zero => exact Recording.ensures_stop trivial
  | succ fuel ih =>
    rw [writesAux]
    split
    case isTrue => exact Recording.ensures_pure trivial
    case isFalse =>
      refine tryWrites_ensures fun i hi hword => ?_
      obtain ⟨hpos, hlt⟩ := List.mem_range'_1.mp hi
      have hle : i ≤ str.length := by omega
      have hspace := h.sprintf hpos hle hword
      have hrest := @ih (str.drop i) (start + i + 1) (space - (i + 1)) (h.drop hpos hle hword)
      have hsum : start + i + 1 + (space - (i + 1)) = start + space := by omega
      rw [hsum] at hrest
      exact ⟨by simp only; omega, hrest⟩

/-- The last of the letters is written with a space and a `NUL`, where one byte is left for them. -/
theorem writesAux_letters (start : ℕ) (hne : str ≠ []) (hall : ∀ c ∈ str, dictFind [c] = true)
    (hfuel : str.length ≤ fuel) :
    ∃ w ∈ (writesAux dictFind fuel str start).log, start + 2 * str.length < w.2 := by
  induction str generalizing fuel start with
  | nil => exact absurd rfl hne
  | cons c str ih =>
    obtain ⟨fuel, rfl⟩ := Nat.exists_eq_add_one_of_ne_zero (Nat.ne_zero_of_lt hfuel)
    have hfirst : dictFind ((c :: str).take 1) = true := hall c List.mem_cons_self
    have hshort : 1 + 1 < 2 ^ 31 := by decide
    rw [writesAux, if_neg hne, List.length_cons, List.range'_succ, tryWrites, if_pos hfirst,
      if_pos hshort, Recording.note_bind]
    by_cases hend : str = []
    · subst hend
      refine ⟨(start, start + 1 + 2), List.mem_cons_self, ?_⟩
      simp only [List.length_nil]
      omega
    · obtain ⟨w, hw, hlt⟩ := ih (start + 1 + 1) hend
        (fun d hd => hall d (List.mem_cons_of_mem c hd)) (Nat.le_of_succ_le_succ hfuel)
      exact ⟨w, List.mem_cons_of_mem _ (Recording.mem_log_bind hw _), by omega⟩

end InterviewQuestions.TokenizeWords

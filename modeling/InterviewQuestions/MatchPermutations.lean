import InterviewQuestions.Library.CString
import InterviewQuestions.Library.FrequencyTable
import InterviewQuestions.Library.Scanf
import Mathlib.Data.FinEnum
import Mathlib.Data.List.Range

/-! `arrays_strings/match_permutations/solution.c`. There is no result where the assertion fails, an
index is out of range or a counter is taken below 0. -/
namespace InterviewQuestions.MatchPermutations

open Library Function

/-- `if (p) n++;` -/
def incIf (p : Prop) [Decidable p] (n : ℕ) : ℕ := if p then n + 1 else n

/-- `if (p) n--;` -/
def decIf (p : Prop) [Decidable p] (n : ℕ) : Option ℕ :=
  if p then if n = 0 then none else some (n - 1) else some n

structure State where
  bigFreq : UInt8 → ℕ
  totalBig : ℕ
  matched : ℕ

/-- The first loop, for one character. -/
def fill (shortFreq : UInt8 → ℕ) (s : State) (idx : UInt8) : Option State := do
  let matched ← decIf (s.bigFreq idx = shortFreq idx ∧ s.bigFreq idx ≠ 0) s.matched
  let totalBig := incIf (s.bigFreq idx = 0) s.totalBig
  let bigFreq := update s.bigFreq idx (s.bigFreq idx + 1)
  return ⟨bigFreq, totalBig, incIf (bigFreq idx = shortFreq idx) matched⟩

/-- The leftmost character goes. -/
def remove (shortFreq : UInt8 → ℕ) (s : State) (idx : UInt8) : Option State :=
  if s.bigFreq idx > 0 then do
    let matched ← decIf (s.bigFreq idx = shortFreq idx) s.matched
    let bigFreq := update s.bigFreq idx (s.bigFreq idx - 1)
    let matched := incIf (bigFreq idx = shortFreq idx ∧ bigFreq idx ≠ 0) matched
    let totalBig ← decIf (bigFreq idx = 0) s.totalBig
    return ⟨bigFreq, totalBig, matched⟩
  else none

/-- The rightmost character comes. -/
def add (shortFreq : UInt8 → ℕ) (s : State) (idx : UInt8) : Option State := do
  let totalBig := incIf (s.bigFreq idx = 0) s.totalBig
  let matched ← decIf (s.bigFreq idx = shortFreq idx ∧ s.bigFreq idx ≠ 0) s.matched
  let bigFreq := update s.bigFreq idx (s.bigFreq idx + 1)
  return ⟨bigFreq, totalBig, incIf (bigFreq idx = shortFreq idx) matched⟩

/-- What is printed for an offset. -/
def printed (offset : ℕ) : List UInt8 := Scanf.printNat offset ++ [32]

/-- `if (matched == nfreq && total_big == nfreq) printf("%zu ", offset);` -/
def report (nfreq : ℕ) (s : State) (offset : ℕ) : List UInt8 :=
  if s.matched = nfreq ∧ s.totalBig = nfreq then printed offset else []

/-- The second loop, where the characters from `big_str[i]` on are left. -/
def slide (bigStr : CString) (shortLen : ℕ) (shortFreq : UInt8 → ℕ) (nfreq : ℕ) :
    List UInt8 → ℕ → State → Option (List UInt8)
  | [], _, _ => some []
  | idxAdd :: rest, i, s => do
      let idxRemove ← bigStr.bytes[i - shortLen]?
      let s ← add shortFreq (← remove shortFreq s idxRemove) idxAdd
      return report nfreq s (i - shortLen + 1) ++
        (← slide bigStr shortLen shortFreq nfreq rest (i + 1) s)

def matchPermutationsAux (bigStr : CString) (shortLen : ℕ) (shortFreq : UInt8 → ℕ) (nfreq : ℕ) :
    Option (List UInt8) :=
  if shortLen ≤ bigStr.length then do
    let s ← (bigStr.bytes.take shortLen).foldlM (fill shortFreq) ⟨fun _ => 0, 0, 0⟩
    return report nfreq s 0 ++
      (← slide bigStr shortLen shortFreq nfreq (bigStr.bytes.drop shortLen) shortLen s)
  else none

/-- `total_short` and `short_freq`, with one more character. -/
def tally (s : ℕ × (UInt8 → ℕ)) (idx : UInt8) : ℕ × (UInt8 → ℕ) :=
  (incIf (s.2 idx = 0) s.1, update s.2 idx (s.2 idx + 1))

/-- What is printed; a null pointer is `none`. -/
def matchPermutations (strA strB : Option CString) : Option (List UInt8) :=
  match strA, strB with
  | some strA, some strB => do
      let (bigStr, shortStr) := if strB.length > strA.length then (strB, strA) else (strA, strB)
      let (totalShort, shortFreq) := shortStr.bytes.foldl tally (0, fun _ => 0)
      return (← matchPermutationsAux bigStr shortStr.length shortFreq totalShort) ++ [10]
  | _, _ => some []

/-! ## The counters -/

open Library.FrequencyTable

variable {f g : UInt8 → ℕ} {c : UInt8} {p : Prop} [Decidable p] {n m : ℕ}

theorem incIf_eq : incIf p n = n + (if p then 1 else 0) := by
  unfold incIf
  split <;> rfl

theorem decIf_eq (h : m + (if p then 1 else 0) = n) : decIf p n = some m := by
  unfold decIf
  split at h
  case isTrue hp => rw [if_pos hp, if_neg (by omega), ← h, Nat.add_sub_cancel]
  case isFalse hp => rw [if_neg hp, ← h, Nat.add_zero]

/-- The counters that go with a table. -/
def exact (g f : UInt8 → ℕ) : State := ⟨f, filled f, matching f g⟩

theorem incIf_filled : incIf (f c = 0) (filled f) = filled (update f c (f c + 1)) := by
  have hfilled := filled_update f c (f c + 1)
  rw [if_pos (Nat.succ_ne_zero _)] at hfilled
  rw [incIf_eq]
  by_cases hzero : f c = 0
  · rw [if_neg (not_not_intro hzero)] at hfilled
    rw [if_pos hzero]
    exact hfilled.symm
  · rw [if_pos hzero] at hfilled
    rw [if_neg hzero]
    omega

theorem decIf_filled (hpos : f c > 0) :
    decIf (update f c (f c - 1) c = 0) (filled f) = some (filled (update f c (f c - 1))) := by
  have hfilled := filled_update f c (f c - 1)
  rw [if_pos hpos.ne'] at hfilled
  rw [update_self]
  apply decIf_eq
  by_cases hzero : f c - 1 = 0
  · rw [if_neg (not_not_intro hzero)] at hfilled
    rw [if_pos hzero]
    exact hfilled
  · rw [if_pos hzero] at hfilled
    rw [if_neg hzero]
    omega

/-- The entry of one value changes: it is taken from the matched ones first, where it is one of
them, and then may become one again. -/
theorem matched_update (hne : n ≠ f c) :
    ∃ m, decIf (f c = g c ∧ f c ≠ 0) (matching f g) = some m ∧
      incIf (n = g c ∧ n ≠ 0) m = matching (update f c n) g := by
  have hmatching := matching_update f g c n
  by_cases hold : f c = g c ∧ f c ≠ 0
  · have hnew : ¬ (n = g c ∧ n ≠ 0) := fun h => hne (h.1.trans hold.1.symm)
    rw [if_pos hold, if_neg hnew] at hmatching
    refine ⟨matching (update f c n) g, decIf_eq ?_, if_neg hnew⟩
    rw [if_pos hold]
    exact hmatching
  · rw [if_neg hold] at hmatching
    refine ⟨matching f g, if_neg hold, ?_⟩
    rw [incIf_eq, ← hmatching, Nat.add_zero]

theorem incIf_congr {q : Prop} [Decidable q] (h : p ↔ q) : incIf p n = incIf q n := by
  simp only [incIf, h]

theorem decIf_congr {q : Prop} [Decidable q] (h : p ↔ q) : decIf p n = decIf q n := by
  simp only [decIf, h]

theorem add_exact (g f : UInt8 → ℕ) (c : UInt8) :
    add g (exact g f) c = some (exact g (update f c (f c + 1))) := by
  obtain ⟨m, hdec, hinc⟩ := matched_update (g := g) (Nat.succ_ne_self (f c))
  have hadd : add g (exact g f) c = (decIf (f c = g c ∧ f c ≠ 0) (matching f g)).bind fun m =>
      some ⟨update f c (f c + 1), incIf (f c = 0) (filled f),
        incIf (update f c (f c + 1) c = g c) m⟩ := rfl
  have hnext : update f c (f c + 1) c = g c ↔ f c + 1 = g c ∧ f c + 1 ≠ 0 := by
    rw [update_self, and_iff_left (Nat.succ_ne_zero _)]
  rw [hadd, hdec, Option.bind_some, incIf_filled, incIf_congr hnext, hinc]
  rfl

theorem fill_eq_add (g : UInt8 → ℕ) (s : State) (c : UInt8) : fill g s c = add g s c := rfl

theorem remove_exact (hpos : f c > 0) :
    remove g (exact g f) c = some (exact g (update f c (f c - 1))) := by
  obtain ⟨m, hdec, hinc⟩ := matched_update (f := f) (c := c) (g := g)
    (show f c - 1 ≠ f c by omega)
  have hremove : remove g (exact g f) c = if f c > 0 then
      (decIf (f c = g c) (matching f g)).bind fun m =>
        (decIf (update f c (f c - 1) c = 0) (filled f)).bind fun totalBig =>
          some ⟨update f c (f c - 1), totalBig, incIf (update f c (f c - 1) c = g c ∧
            update f c (f c - 1) c ≠ 0) m⟩ else none := rfl
  have hold : f c = g c ↔ f c = g c ∧ f c ≠ 0 := (and_iff_left hpos.ne').symm
  have hnew : update f c (f c - 1) c = g c ∧ update f c (f c - 1) c ≠ 0 ↔
      f c - 1 = g c ∧ f c - 1 ≠ 0 := by
    rw [update_self]
  rw [hremove, if_pos hpos, decIf_congr hold, hdec, Option.bind_some, decIf_filled hpos,
    Option.bind_some, incIf_congr hnew, hinc]
  rfl

/-! ## The windows -/

variable {bigStr : CString} {big short front window back rest : List UInt8} {i : ℕ}

theorem table_concat (window : List UInt8) (c : UInt8) :
    table (window ++ [c]) = update (table window) c (table window c + 1) := by
  rw [← table_cons]
  exact table_congr (List.perm_append_singleton c window)

theorem exact_nil (g : UInt8 → ℕ) : exact g (table []) = ⟨fun _ => 0, 0, 0⟩ := by
  have hnil : table [] = fun _ : UInt8 => 0 := rfl
  simp [exact, hnil, filled, matching]

theorem foldlM_fill (g : UInt8 → ℕ) (rest window : List UInt8) :
    rest.foldlM (fill g) (exact g (table window)) = some (exact g (table (window ++ rest))) := by
  induction rest generalizing window with
  | nil => rw [List.append_nil, List.foldlM_nil, Option.pure_def]
  | cons c rest ih =>
    rw [List.foldlM_cons, fill_eq_add, add_exact, ← table_concat]
    exact (ih _).trans (by rw [List.append_assoc, List.singleton_append])

theorem foldl_tally (rest window : List UInt8) :
    rest.foldl tally (filled (table window), table window) =
      (filled (table (window ++ rest)), table (window ++ rest)) := by
  induction rest generalizing window with
  | nil => rw [List.append_nil, List.foldl_nil]
  | cons c rest ih =>
    have hstep : tally (filled (table window), table window) c =
        (filled (table (window ++ [c])), table (window ++ [c])) := by
      rw [tally, incIf_filled, table_concat]
    rw [List.foldl_cons, hstep, ih, List.append_assoc, List.singleton_append]

/-- The window moves by one character. -/
theorem remove_add (g : UInt8 → ℕ) (a c : UInt8) (window : List UInt8) :
    (remove g (exact g (table (a :: window))) a).bind (add g · c) =
      some (exact g (table (window ++ [c]))) := by
  have hpos : table (a :: window) a > 0 := by
    rw [table_cons, update_self]
    exact Nat.succ_pos _
  rw [remove_exact hpos, ← table_of_cons, Option.bind_some, add_exact, table_concat]

/-- A permutation of `short` begins at an offset of `big`. -/
def BeginsAt (big short : List UInt8) (offset : ℕ) : Prop :=
  ∃ front window back, big = front ++ window ++ back ∧ front.length = offset ∧ window.Perm short

theorem beginsAt_iff (hbig : big = front ++ window ++ back) (hlen : window.length = short.length) :
    BeginsAt big short front.length ↔ window.Perm short := by
  constructor
  · rintro ⟨front', window', back', hbig', hfront, hperm⟩
    rw [hbig, List.append_assoc, List.append_assoc] at hbig'
    have hrest := List.append_inj_right hbig' hfront.symm
    rwa [List.append_inj_left hrest (hlen.trans hperm.length_eq.symm)]
  · exact fun hperm => ⟨front, window, back, hbig, rfl, hperm⟩

theorem BeginsAt.le (h : BeginsAt big short i) : i + short.length ≤ big.length := by
  obtain ⟨front, window, back, rfl, rfl, hperm⟩ := h
  rw [List.length_append, List.length_append, hperm.length_eq]
  omega

/-- The offsets from `n` on, in increasing order. -/
structure OffsetsFrom (big short : List UInt8) (n : ℕ) (offsets : List ℕ) : Prop where
  increasing : offsets.Pairwise (· < ·)
  mem_iff : ∀ i, i ∈ offsets ↔ n ≤ i ∧ BeginsAt big short i

theorem report_exact (short window : List UInt8) (i : ℕ) :
    report (filled (table short)) (exact (table short) (table window)) i =
      if window.Perm short then printed i else [] := by
  have hsame : (exact (table short) (table window)).matched = filled (table short) ∧
      (exact (table short) (table window)).totalBig = filled (table short) ↔ window.Perm short :=
    (eq_iff (f := table window) (g := table short)).symm.trans table_eq_iff
  simp only [report, hsame]

/-- What is reported for a window comes in front of the later offsets. -/
theorem OffsetsFrom.report {offsets : List ℕ}
    (h : OffsetsFrom big short (front.length + 1) offsets) (hbig : big = front ++ window ++ back)
    (hlen : window.length = short.length) :
    ∃ offsets', OffsetsFrom big short front.length offsets' ∧
      report (filled (table short)) (exact (table short) (table window)) front.length ++
        offsets.flatMap printed = offsets'.flatMap printed := by
  rw [report_exact]
  have hiff : BeginsAt big short front.length ↔ window.Perm short := beginsAt_iff hbig hlen
  by_cases hperm : window.Perm short
  · rw [if_pos hperm]
    refine ⟨front.length :: offsets, ⟨?_, fun i => ?_⟩, rfl⟩
    · exact List.pairwise_cons.mpr ⟨fun i hi => ((h.mem_iff i).mp hi).1, h.increasing⟩
    · rw [List.mem_cons, h.mem_iff]
      constructor
      · rintro (rfl | ⟨hle, hbegins⟩)
        · exact ⟨Nat.le_refl _, hiff.mpr hperm⟩
        · exact ⟨Nat.le_of_succ_le hle, hbegins⟩
      · rintro ⟨hle, hbegins⟩
        rcases Nat.eq_or_lt_of_le hle with heq | hlt
        · exact .inl heq.symm
        · exact .inr ⟨hlt, hbegins⟩
  · rw [if_neg hperm]
    refine ⟨offsets, ⟨h.increasing, fun i => ?_⟩, rfl⟩
    rw [h.mem_iff]
    refine and_congr_left fun hbegins => ⟨Nat.le_of_succ_le, fun hle => ?_⟩
    rcases Nat.eq_or_lt_of_le hle with rfl | hlt
    · exact absurd (hiff.mp hbegins) hperm
    · exact hlt

theorem slide_spec (hbig : bigStr.bytes = front ++ window ++ rest)
    (hlen : window.length = short.length) (hpos : 0 < short.length) :
    ∃ offsets, OffsetsFrom bigStr.bytes short (front.length + 1) offsets ∧
      slide bigStr short.length (table short) (filled (table short)) rest
        (front.length + short.length) (exact (table short) (table window)) =
        some (offsets.flatMap printed) := by
  induction rest generalizing front window with
  | nil =>
    refine ⟨[], ⟨.nil, fun i => ?_⟩, rfl⟩
    refine iff_of_false List.not_mem_nil fun h => ?_
    have hle := h.2.le
    rw [hbig, List.append_nil, List.length_append] at hle
    omega
  | cons c rest ih =>
    obtain ⟨a, window, rfl⟩ : ∃ a window', window = a :: window' :=
      List.exists_cons_of_length_pos (hlen ▸ hpos)
    have hlen' : (window ++ [c]).length = short.length := by
      rw [← hlen, List.length_append, List.length_cons]
      rfl
    have hbig' : bigStr.bytes = (front ++ [a]) ++ (window ++ [c]) ++ rest := by simp [hbig]
    have hread : bigStr.bytes[front.length + short.length - short.length]? = some a := by
      rw [hbig, Nat.add_sub_cancel, List.append_assoc, List.getElem?_append_right (Nat.le_refl _),
        Nat.sub_self]
      rfl
    have hfront : (front ++ [a]).length = front.length + 1 := by simp
    obtain ⟨offsets, hoffsets, hslide⟩ := ih hbig' hlen'
    obtain ⟨offsets', hoffsets', hreport⟩ := hoffsets.report hbig' hlen'
    rw [hfront] at hslide hoffsets' hreport
    refine ⟨offsets', hoffsets', ?_⟩
    rw [slide, hread]
    simp only [Option.bind_eq_bind, Option.bind_some]
    rw [← Option.bind_assoc, remove_add, Option.bind_some, Nat.add_right_comm, hslide,
      ← hreport, Nat.add_sub_cancel]
    rfl

/-- The longer string, the first one where they are of the same length. -/
def longer (a b : CString) : CString := if b.length > a.length then b else a

def shorter (a b : CString) : CString := if b.length > a.length then a else b

theorem matchPermutationsAux_spec (hbig : short.length ≤ bigStr.length) (hpos : 0 < short.length) :
    ∃ offsets, OffsetsFrom bigStr.bytes short 0 offsets ∧
      matchPermutationsAux bigStr short.length (table short) (filled (table short)) =
        some (offsets.flatMap printed) := by
  have hlen : (bigStr.bytes.take short.length).length = short.length := List.length_take_of_le hbig
  have hsplit : bigStr.bytes =
      [] ++ bigStr.bytes.take short.length ++ bigStr.bytes.drop short.length := by simp
  obtain ⟨offsets, hoffsets, hslide⟩ := slide_spec hsplit hlen hpos
  obtain ⟨offsets', hoffsets', hreport⟩ := hoffsets.report hsplit hlen
  refine ⟨offsets', hoffsets', ?_⟩
  rw [List.length_nil, Nat.zero_add] at hslide
  rw [matchPermutationsAux, if_pos hbig, ← exact_nil (table short), foldlM_fill, List.nil_append]
  simp only [Option.bind_eq_bind, Option.bind_some]
  rw [hslide, ← hreport]
  rfl

/-- The offsets at which a permutation of the shorter string begins are printed in increasing
order. -/
theorem matchPermutations_spec (a b : CString) (ha : 0 < a.length) (hb : 0 < b.length) :
    ∃ offsets : List ℕ, offsets.Pairwise (· < ·) ∧
      (∀ i, i ∈ offsets ↔ BeginsAt (longer a b).bytes (shorter a b).bytes i) ∧
      matchPermutations (some a) (some b) = some (offsets.flatMap printed ++ [10]) := by
  have hpos : 0 < (shorter a b).bytes.length := by
    unfold shorter
    split <;> assumption
  have hle : (shorter a b).bytes.length ≤ (longer a b).length := by
    unfold shorter longer
    split
    · rename_i hlt
      exact Nat.le_of_lt hlt
    · rename_i hlt
      exact Nat.le_of_not_lt hlt
  obtain ⟨offsets, ⟨hincreasing, hmem⟩, haux⟩ := matchPermutationsAux_spec hle hpos
  refine ⟨offsets, hincreasing, fun i => ?_, ?_⟩
  · rw [hmem, and_iff_right (Nat.zero_le i)]
  · have hpair : (if b.length > a.length then (b, a) else (a, b)) = (longer a b, shorter a b) := by
      unfold longer shorter
      split <;> rfl
    have htally : (shorter a b).bytes.foldl tally (0, fun _ => 0) =
        (filled (table (shorter a b).bytes), table (shorter a b).bytes) := by
      have hfold := foldl_tally (shorter a b).bytes []
      have hnil : filled (table ([] : List UInt8)) = 0 := congrArg State.totalBig
        (exact_nil fun _ => 0)
      rwa [hnil] at hfold
    rw [matchPermutations, hpair]
    dsimp only
    rw [htally]
    dsimp only
    rw [show (shorter a b).length = (shorter a b).bytes.length from rfl, haux]
    rfl

/-- The strings `"cab"` and `"ba"`. -/
theorem matchPermutations_spec_cab :
    ∃ offsets : List ℕ, offsets.Pairwise (· < ·) ∧
      (∀ i, i ∈ offsets ↔ BeginsAt [99, 97, 98] [98, 97] i) ∧
      matchPermutations (some ⟨[99, 97, 98], by decide⟩) (some ⟨[98, 97], by decide⟩) =
        some (offsets.flatMap printed ++ [10]) :=
  matchPermutations_spec ⟨[99, 97, 98], by decide⟩ ⟨[98, 97], by decide⟩ (by decide) (by decide)

end InterviewQuestions.MatchPermutations

import InterviewQuestions.Library.CString
import InterviewQuestions.Library.LetterLanguage

/-! `recursion_dp/glob_matcher/solution.c`. There is no result where an assertion fails, or where a
string is read behind its `NUL`. -/
namespace InterviewQuestions.GlobMatcher

open Library (CString)

/-- `s[i]` -/
def read (s : CString) (i : ℕ) : Option UInt8 := (s.bytes ++ [0])[i]?

/-- The loop over what the star stands for, where `rest` matches the pattern behind it. -/
def starLoop (str : CString) (strOffset : ℕ) (c : UInt8) (rest : ℕ → Option Bool) :
    ℕ → Bool → ℕ → Option Bool
  | 0, _, _ => none
  | fuel + 1, lastRes, starMatchSz =>
      if lastRes then some lastRes
      else do
        let x ← read str (strOffset + starMatchSz - 1)
        if x = 0 then return lastRes
        else if c ≠ 46 ∧ x ≠ c then return lastRes
        else do
          let lastRes ← rest (strOffset + starMatchSz)
          starLoop str strOffset c rest fuel lastRes (starMatchSz + 1)

def matchAux (str pattern : CString) : ℕ → ℕ → ℕ → Option Bool
  | 0, _, _ => none
  | fuel + 1, strOffset, pattOffset => do
      let c ← read pattern pattOffset
      if c = 0 then
        let x ← read str strOffset
        return x = 0
      else
        let next ← read pattern (pattOffset + 1)
        if next ≠ 42 then
          let x ← read str strOffset
          if c ≠ 46 then
            if x = c then matchAux str pattern fuel (strOffset + 1) (pattOffset + 1)
            else return false
          else
            if x ≠ 0 then matchAux str pattern fuel (strOffset + 1) (pattOffset + 1)
            else return false
        else
          guard (c ≠ 42)
          guard (next = 42)
          let lastRes ← matchAux str pattern fuel strOffset (pattOffset + 2)
          starLoop str strOffset c (fun i => matchAux str pattern fuel i (pattOffset + 2))
            (str.length + 1) lastRes 1

/-- Every call is further in the pattern than its caller. -/
def match' (str pattern : CString) : Option Bool :=
  matchAux str pattern (pattern.length + 1) 0 0

/-! The patterns as regular expressions. -/

open Library.LetterLanguage
open scoped Computability

/-- A character, with a star behind it or not. -/
structure Item where
  char : UInt8
  starred : Bool
  char_ne_zero : char ≠ 0
  char_ne_star : char ≠ 42

namespace Item

def text (item : Item) : List UInt8 := item.char :: if item.starred then [42] else []

/-- A dot stands for any character. -/
def Fits (item : Item) (x : UInt8) : Prop := item.char = 46 ∨ x = item.char

def language (item : Item) : Language UInt8 :=
  if item.starred then (letter item.Fits)∗ else letter item.Fits

end Item

/-- A pattern, as it is written. -/
def text (items : List Item) : List UInt8 := items.flatMap Item.text

def language (items : List Item) : Language UInt8 := (items.map Item.language).prod

theorem zero_notMem_text (items : List Item) : 0 ∉ text items := by
  intro h
  obtain ⟨item, -, hitem⟩ := List.mem_flatMap.mp h
  rcases List.mem_cons.mp hitem with hzero | hstar
  · exact item.char_ne_zero hzero.symm
  · split at hstar
    · exact absurd (List.mem_singleton.mp hstar) (by decide)
    · cases hstar

def pattern (items : List Item) : CString := ⟨text items, zero_notMem_text items⟩

variable {s str patt : CString} {i j k fuel : ℕ} {a c x : UInt8} {w before : List UInt8}
  {item : Item} {items : List Item} {L : Language UInt8} {lastRes : Bool}

/-! ## Reading -/

theorem read_append (h : s.bytes = before ++ w) (i : ℕ) :
    read s (before.length + i) = (w ++ [0])[i]? := by
  rw [read, h, List.append_assoc, List.getElem?_append_right (Nat.le_add_right _ _),
    Nat.add_sub_cancel_left]

theorem read_of_drop (h : s.bytes.drop i = a :: w) : read s i = some a := by
  have hlt : i < s.bytes.length := by
    by_contra hge
    rw [List.drop_eq_nil_of_le (Nat.le_of_not_lt hge)] at h
    cases h
  have hget : s.bytes[i]? = some a := by
    rw [← Nat.add_zero i, ← List.getElem?_drop, h]
    rfl
  rw [read, List.getElem?_append_left hlt, hget]

theorem read_of_drop_nil (h : s.bytes.drop i = []) (hi : i ≤ s.bytes.length) :
    read s i = some 0 := by
  have heq : i = s.bytes.length := Nat.le_antisymm hi (List.drop_eq_nil_iff.mp h)
  subst heq
  simp [read]

theorem drop_succ (h : s.bytes.drop i = a :: w) : s.bytes.drop (i + 1) = w := by
  rw [← List.drop_drop, h]
  rfl

theorem succ_le (h : s.bytes.drop i = a :: w) : i + 1 ≤ s.bytes.length := by
  by_contra hge
  rw [List.drop_eq_nil_of_le (by omega)] at h
  cases h

theorem ne_zero_of_drop (h : s.bytes.drop i = a :: w) : a ≠ 0 := by
  rintro rfl
  exact s.no_nul (List.mem_of_mem_drop (h ▸ List.mem_cons_self))

/-! ## Matching -/

/-- The result for the rest of the string is whether it belongs to the language. -/
def Decides (str : CString) (L : Language UInt8) (rest : ℕ → Option Bool) : Prop :=
  ∀ i, i ≤ str.length → ∃ b, rest i = some b ∧ (b = true ↔ str.bytes.drop i ∈ L)

/-- After `k` characters that the star stands for. -/
theorem starLoop_spec {rest : ℕ → Option Bool} (hrest : Decides str L rest)
    (hlen : i + k ≤ str.length) (hlast : lastRes = true ↔ str.bytes.drop (i + k) ∈ L)
    (hfuel : str.length < i + k + fuel) :
    ∃ b, starLoop str i item.char rest fuel lastRes (k + 1) = some b ∧
      (b = true ↔ str.bytes.drop (i + k) ∈ (letter item.Fits)∗ * L) := by
  induction fuel generalizing k lastRes with
  | zero => omega
  | succ fuel ih =>
    rw [starLoop]
    by_cases hfound : lastRes = true
    · rw [if_pos hfound]
      refine ⟨lastRes, rfl, iff_of_true hfound ?_⟩
      exact mem_kstar_mul.mpr (.inl (hlast.mp hfound))
    · rw [if_neg hfound]
      have hnot := fun hmem => hfound (hlast.mpr hmem)
      rw [Nat.add_succ_sub_one]
      cases hdrop : str.bytes.drop (i + k) with
      | nil =>
        rw [hdrop] at hnot
        rw [read_of_drop_nil hdrop hlen]
        refine ⟨lastRes, rfl, iff_of_false hfound ?_⟩
        rwa [nil_mem_kstar_mul]
      | cons x w =>
        rw [hdrop] at hnot
        rw [read_of_drop hdrop, cons_mem_kstar_mul, or_iff_right hnot]
        simp only [Option.bind_eq_bind, Option.bind_some, if_neg (ne_zero_of_drop hdrop)]
        by_cases hfits : item.Fits x
        · have hgo : ¬ (item.char ≠ 46 ∧ x ≠ item.char) := fun hne => hfits.elim hne.1 hne.2
          have hlen' : i + (k + 1) ≤ str.length := succ_le hdrop
          obtain ⟨b, hb, hiff⟩ := hrest (i + (k + 1)) hlen'
          obtain ⟨b', hb', hiff'⟩ := ih hlen' hiff (by omega)
          rw [if_neg hgo, hb, Option.bind_some, hb']
          refine ⟨b', rfl, ?_⟩
          rw [hiff', ← Nat.add_assoc, drop_succ hdrop]
          exact (and_iff_right hfits).symm
        · rw [if_pos (not_or.mp hfits)]
          exact ⟨lastRes, rfl, iff_of_false hfound fun h => hfits h.1⟩

theorem language_cons (item : Item) (items : List Item) :
    language (item :: items) = item.language * language items := by
  rw [language, List.map_cons, List.prod_cons]
  rfl

/-- A character that no star follows. -/
theorem mem_letter_mul_drop (hi : i ≤ str.bytes.length) :
    str.bytes.drop i ∈ letter item.Fits * L ↔
      ∃ x, read str i = some x ∧ x ≠ 0 ∧ item.Fits x ∧ str.bytes.drop (i + 1) ∈ L := by
  cases hdrop : str.bytes.drop i with
  | nil =>
    refine iff_of_false nil_notMem_letter_mul ?_
    rintro ⟨x, hx, hne, -⟩
    rw [read_of_drop_nil hdrop hi] at hx
    exact hne (Option.some.inj hx).symm
  | cons a w =>
    rw [cons_mem_letter_mul, drop_succ hdrop, read_of_drop hdrop]
    constructor
    · rintro ⟨hfits, hw⟩
      exact ⟨a, rfl, ne_zero_of_drop hdrop, hfits, hw⟩
    · rintro ⟨x, hx, -, hfits, hw⟩
      cases hx
      exact ⟨hfits, hw⟩

theorem exists_read (hi : i ≤ str.bytes.length) : ∃ x, read str i = some x := by
  cases hdrop : str.bytes.drop i with
  | nil => exact ⟨0, read_of_drop_nil hdrop hi⟩
  | cons a w => exact ⟨a, read_of_drop hdrop⟩

theorem eq_zero_iff (hi : i ≤ str.bytes.length) (hx : read str i = some x) :
    x = 0 ↔ str.bytes.drop i = [] := by
  cases hdrop : str.bytes.drop i with
  | nil =>
    rw [read_of_drop_nil hdrop hi] at hx
    exact iff_of_true (Option.some.inj hx).symm rfl
  | cons a w =>
    rw [read_of_drop hdrop] at hx
    cases hx
    exact iff_of_false (ne_zero_of_drop hdrop) (List.cons_ne_nil x w)

theorem matchAux_plain {next : UInt8} (hc : read patt j = some c) (hzero : c ≠ 0)
    (hnext : read patt (j + 1) = some next) (hstar : next ≠ 42) (hx : read str i = some x) :
    matchAux str patt (fuel + 1) i j =
      if x ≠ 0 ∧ (c = 46 ∨ x = c) then matchAux str patt fuel (i + 1) (j + 1) else some false := by
  simp only [matchAux, hc, hnext, hx, Option.bind_eq_bind, Option.bind_some, if_neg hzero,
    if_pos hstar]
  by_cases hdot : c = 46
  · rw [if_neg (not_not_intro hdot)]
    by_cases hx0 : x = 0
    · rw [if_neg (not_not_intro hx0), if_neg fun h => h.1 hx0]
      rfl
    · rw [if_pos hx0, if_pos ⟨hx0, .inl hdot⟩]
  · rw [if_pos hdot]
    by_cases hxc : x = c
    · rw [if_pos hxc, if_pos ⟨hxc ▸ hzero, .inr hxc⟩]
    · rw [if_neg hxc, if_neg fun h => h.2.elim hdot hxc]
      rfl

theorem matchAux_star (hc : read patt j = some c) (hzero : c ≠ 0) (hstar : c ≠ 42)
    (hnext : read patt (j + 1) = some 42) :
    matchAux str patt (fuel + 1) i j = (matchAux str patt fuel i (j + 2)).bind fun lastRes =>
      starLoop str i c (fun i => matchAux str patt fuel i (j + 2)) (str.length + 1) lastRes 1 := by
  simp [matchAux, hc, hnext, hzero, hstar, guard]

/-- No star follows an item. -/
theorem exists_next (items : List Item) :
    ∃ next, (text items ++ [0])[0]? = some next ∧ next ≠ 42 := by
  cases items with
  | nil => exact ⟨0, rfl, by decide⟩
  | cons item items => exact ⟨item.char, rfl, item.char_ne_star⟩

theorem read_char (hpatt : patt.bytes = before ++ text (item :: items)) :
    read patt before.length = some item.char := by
  rw [← Nat.add_zero before.length, read_append hpatt]
  rfl

/-- The pattern has come to its end. -/
theorem decides_nil (hpatt : patt.bytes = before ++ text []) :
    Decides str (language []) fun i => matchAux str patt (fuel + 1) i before.length := by
  intro i hi
  obtain ⟨x, hx⟩ := exists_read hi
  have hend : read patt before.length = some 0 := read_append hpatt 0
  refine ⟨decide (x = 0), by simp [matchAux, hend, hx], ?_⟩
  rw [decide_eq_true_iff, eq_zero_iff hi hx]
  exact (Language.mem_one _).symm

theorem decides_star (hpatt : patt.bytes = before ++ text (item :: items))
    (hstar : item.starred = true)
    (hrest : Decides str (language items) fun i => matchAux str patt fuel i (before.length + 2)) :
    Decides str (language (item :: items)) fun i =>
      matchAux str patt (fuel + 1) i before.length := by
  intro i hi
  have hnext : read patt (before.length + 1) = some 42 := by
    rw [read_append hpatt, text, List.flatMap_cons, Item.text, if_pos hstar]
    rfl
  obtain ⟨b, hb, hiff⟩ := hrest i hi
  simp only at hb ⊢
  rw [language_cons, matchAux_star (read_char hpatt) item.char_ne_zero item.char_ne_star hnext, hb,
    Option.bind_some, Item.language, if_pos hstar]
  exact starLoop_spec (k := 0) hrest hi hiff (by omega)

theorem decides_plain (hpatt : patt.bytes = before ++ text (item :: items))
    (hbefore : patt.bytes = (before ++ [item.char]) ++ text items) (hstar : ¬ item.starred = true)
    (hrest : Decides str (language items) fun i => matchAux str patt fuel i (before.length + 1)) :
    Decides str (language (item :: items)) fun i =>
      matchAux str patt (fuel + 1) i before.length := by
  intro i hi
  obtain ⟨next, hnext, hne⟩ := exists_next items
  have hread : read patt (before.length + 1) = some next := by
    have hread := read_append hbefore 0
    rwa [List.length_append, List.length_singleton, Nat.add_zero, hnext] at hread
  obtain ⟨x, hx⟩ := exists_read hi
  simp only
  rw [language_cons, matchAux_plain (read_char hpatt) item.char_ne_zero hread hne hx,
    Item.language, if_neg hstar, mem_letter_mul_drop hi]
  by_cases hfits : x ≠ 0 ∧ (item.char = 46 ∨ x = item.char)
  · have hlen : i + 1 ≤ str.length := by
      cases hdrop : str.bytes.drop i with
      | nil => exact absurd ((eq_zero_iff hi hx).mpr hdrop) hfits.1
      | cons a w => exact succ_le hdrop
    obtain ⟨b, hb, hiff⟩ := hrest (i + 1) hlen
    rw [if_pos hfits]
    refine ⟨b, hb, hiff.trans ⟨fun h => ⟨x, hx, hfits.1, hfits.2, h⟩, ?_⟩⟩
    rintro ⟨-, -, -, -, h⟩
    exact h
  · rw [if_neg hfits]
    refine ⟨false, rfl, iff_of_false Bool.false_ne_true ?_⟩
    rintro ⟨y, hy, hzero, hy', -⟩
    rw [hx] at hy
    cases hy
    exact hfits ⟨hzero, hy'⟩

/-- The calls decide for the rest of the pattern, by induction on its items. -/
theorem matchAux_spec (items : List Item) (hpatt : patt.bytes = before ++ text items)
    (hfuel : items.length < fuel) :
    Decides str (language items) fun i => matchAux str patt fuel i before.length := by
  induction items generalizing before fuel with
  | nil =>
    obtain ⟨fuel, rfl⟩ := Nat.exists_eq_add_one_of_ne_zero (Nat.ne_zero_of_lt hfuel)
    exact decides_nil hpatt
  | cons item items ih =>
    obtain ⟨fuel, rfl⟩ := Nat.exists_eq_add_one_of_ne_zero (Nat.ne_zero_of_lt hfuel)
    have hfuel' : items.length < fuel := Nat.lt_of_succ_lt_succ hfuel
    by_cases hstar : item.starred = true
    · have hbefore : patt.bytes = (before ++ [item.char, 42]) ++ text items := by
        rw [hpatt, text, List.flatMap_cons, Item.text, if_pos hstar, List.append_assoc]
        rfl
      have hrest := ih hbefore hfuel'
      rw [List.length_append] at hrest
      exact decides_star hpatt hstar hrest
    · have hbefore : patt.bytes = (before ++ [item.char]) ++ text items := by
        rw [hpatt, text, List.flatMap_cons, Item.text, if_neg hstar, List.append_assoc]
        rfl
      have hrest := ih hbefore hfuel'
      rw [List.length_append] at hrest
      exact decides_plain hpatt hbefore hstar hrest

theorem length_le_text (items : List Item) : items.length ≤ (text items).length := by
  induction items with
  | nil => exact Nat.le_refl 0
  | cons item items ih =>
    rw [text, List.flatMap_cons, List.length_append, List.length_cons, Item.text, List.length_cons]
    rw [text] at ih
    omega

/-- The whole string is matched, and no assertion fails. -/
theorem match_correct (str : CString) (items : List Item) :
    ∃ b, match' str (pattern items) = some b ∧ (b = true ↔ str.bytes ∈ language items) := by
  have hpatt : (pattern items).bytes = [] ++ text items := rfl
  have hfuel : items.length < (pattern items).length + 1 :=
    Nat.lt_succ_of_le (length_le_text items)
  exact matchAux_spec items hpatt hfuel 0 (Nat.zero_le _)

/-- `c*a*b` -/
example : (match' ⟨[97, 97, 98], by decide⟩ ⟨[99, 42, 97, 42, 98], by decide⟩) = some true := by
  decide +kernel

end InterviewQuestions.GlobMatcher

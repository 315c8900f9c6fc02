import Mathlib.Algebra.GroupWithZero.Nat
import Mathlib.Data.Finset.Basic
import Mathlib.Data.Int.Order.Basic

/-! `arrays_strings/duplicates_within_k/solution.cpp`. There is no result where an index is out of
range. -/
namespace InterviewQuestions.DuplicatesWithinK

/-- A `size_type` of 64 bits. -/
def size (n : ℕ) : ℕ := n % 2 ^ 64

/-- The loop that fills the window; `none` inside where it returns. -/
def fillLoop (array : List ℤ) : ℕ → ℕ → Finset ℤ → Option (Option (Finset ℤ))
  | 0, _, window => some (some window)
  | n + 1, i, window => do
      let x ← array[i]?
      if x ∈ window then return none else fillLoop array n (i + 1) (insert x window)

/-- The loop that moves the window. -/
def slideLoop (array : List ℤ) (k : ℕ) : ℕ → ℕ → Finset ℤ → Option Bool
  | 0, _, _ => some false
  | n + 1, i, window => do
      let window := window.erase (← array[i - k - 1]?)
      let x ← array[i]?
      if x ∈ window then return true else slideLoop array k n (i + 1) (insert x window)

def duplicatesWithinK (array : List ℤ) (k : ℕ) : Option Bool :=
  if size (k + 1) > array.length then some false
  else do
    match ← fillLoop array (size (k + 1)) 0 ∅ with
    | none => return true
    | some window =>
      slideLoop array k (array.length - size (k + 1)) (size (k + 1)) window

/-- Equal elements at two indices that are at most `k` apart. -/
def HasNear (array : List ℤ) (k : ℕ) : Prop :=
  ∃ i j x, i < j ∧ j - i ≤ k ∧ array[i]? = some x ∧ array[j]? = some x

variable {array : List ℤ} {k i n lo : ℕ} {x : ℤ} {window : Finset ℤ}

/-- No equal elements so near among the first `i` ones. -/
def Fresh (array : List ℤ) (k i : ℕ) : Prop :=
  ∀ a b x, a < b → b < i → b ≤ a + k → array[a]? = some x → array[b]? ≠ some x

/-- The window holds the elements from `lo` on and before `i`. -/
def Holds (array : List ℤ) (lo i : ℕ) (window : Finset ℤ) : Prop :=
  ∀ x, x ∈ window ↔ ∃ a, lo ≤ a ∧ a < i ∧ array[a]? = some x

theorem fresh_length_iff : Fresh array k array.length ↔ ¬ HasNear array k := by
  constructor
  · rintro h ⟨i, j, x, hij, hk, hi, hj⟩
    exact h i j x hij (List.getElem?_eq_some_iff.mp hj).1 (by omega) hi hj
  · intro h a b x hab _ hk ha hb
    exact h ⟨a, b, x, hab, by omega, ha, hb⟩

/-- The next element is looked for among the `k` ones before it. -/
theorem fresh_succ_iff (hfresh : Fresh array k i) (hwindow : Holds array (i - k) i window)
    (hx : array[i]? = some x) : Fresh array k (i + 1) ↔ x ∉ window := by
  rw [hwindow]
  constructor
  · rintro h ⟨a, hlow, hai, ha⟩
    exact h a i x hai (Nat.lt_succ_self i) (by omega) ha hx
  · intro hnot a b y hab hb hk ha hby
    rcases Nat.lt_succ_iff_lt_or_eq.mp hb with hlt | rfl
    · exact hfresh a b y hab hlt hk ha hby
    · rw [hx] at hby
      rw [← Option.some.inj hby] at ha
      exact hnot ⟨a, by omega, hab, ha⟩

theorem Holds.insert (hwindow : Holds array lo i window) (hlo : lo ≤ i)
    (hx : array[i]? = some x) : Holds array lo (i + 1) (insert x window) := by
  intro y
  rw [Finset.mem_insert, hwindow]
  constructor
  · rintro (rfl | ⟨a, hlow, hai, ha⟩)
    · exact ⟨i, hlo, Nat.lt_succ_self i, hx⟩
    · exact ⟨a, hlow, Nat.lt_succ_of_lt hai, ha⟩
  · rintro ⟨a, hlow, hai, ha⟩
    rcases Nat.lt_succ_iff_lt_or_eq.mp hai with hlt | rfl
    · exact .inr ⟨a, hlow, hlt, ha⟩
    · exact .inl (Option.some.inj (ha.symm.trans hx))

/-- The first element of the window is in it only once. -/
theorem Holds.erase (hwindow : Holds array lo i window) (hfresh : Fresh array k i)
    (hi : i ≤ lo + k + 1) (hx : array[lo]? = some x) :
    Holds array (lo + 1) i (window.erase x) := by
  intro y
  rw [Finset.mem_erase, hwindow]
  constructor
  · rintro ⟨hne, a, hlow, hai, ha⟩
    refine ⟨a, Nat.lt_of_le_of_ne hlow fun heq => hne ?_, hai, ha⟩
    rw [heq, ha] at hx
    exact Option.some.inj hx
  · rintro ⟨a, hlow, hai, ha⟩
    refine ⟨fun heq => ?_, a, Nat.le_of_succ_le hlow, hai, ha⟩
    rw [heq] at ha
    exact hfresh lo a x hlow hai (by omega) hx ha

theorem Fresh.mono (h : Fresh array k n) (hi : i ≤ n) : Fresh array k i :=
  fun a b x hab hb => h a b x hab (hb.trans_le hi)

theorem hasNear_of_not_fresh (h : ¬ Fresh array k i) (hi : i ≤ array.length) :
    HasNear array k := by
  by_contra hnear
  exact h ((fresh_length_iff.mpr hnear).mono hi)

/-- The window is filled, or two equal elements are found. -/
theorem fillLoop_spec (hfresh : Fresh array k i) (hwindow : Holds array 0 i window)
    (hk : i + n ≤ k + 1) (hn : i + n ≤ array.length) :
    (∃ window', fillLoop array n i window = some (some window') ∧ Fresh array k (i + n) ∧
      Holds array 0 (i + n) window') ∨
      fillLoop array n i window = some none ∧ HasNear array k := by
  induction n generalizing i window with
  | zero => exact .inl ⟨window, rfl, hfresh, hwindow⟩
  | succ n ih =>
    obtain ⟨x, hx⟩ : ∃ x, array[i]? = some x := ⟨_, List.getElem?_eq_getElem (by omega)⟩
    have hlow : i - k = 0 := by omega
    have hnext := fresh_succ_iff hfresh (hlow ▸ hwindow) hx
    rw [fillLoop, hx]
    simp only [Option.bind_eq_bind, Option.bind_some]
    by_cases hmem : x ∈ window
    · rw [if_pos hmem]
      exact .inr ⟨rfl, hasNear_of_not_fresh (fun h => hnext.mp h hmem) (by omega)⟩
    · rw [if_neg hmem, ← Nat.add_assoc, Nat.add_right_comm]
      exact ih (hnext.mpr hmem) (hwindow.insert (Nat.zero_le i) hx) (by omega) (by omega)

theorem slideLoop_spec (hfresh : Fresh array k i) (hi : k + 1 ≤ i)
    (hwindow : Holds array (i - k - 1) i window) (hn : i + n = array.length) :
    ∃ b, slideLoop array k n i window = some b ∧ (b = true ↔ HasNear array k) := by
  induction n generalizing i window with
  | zero =>
    rw [Nat.add_zero] at hn
    rw [hn, fresh_length_iff] at hfresh
    exact ⟨false, rfl, iff_of_false Bool.false_ne_true hfresh⟩
  | succ n ih =>
    obtain ⟨x, hx⟩ : ∃ x, array[i]? = some x := ⟨_, List.getElem?_eq_getElem (by omega)⟩
    obtain ⟨old, hold⟩ : ∃ old, array[i - k - 1]? = some old :=
      ⟨_, List.getElem?_eq_getElem (by omega)⟩
    have hrest := hwindow.erase hfresh (by omega) hold
    rw [show i - k - 1 + 1 = i - k by omega] at hrest
    have hnext := fresh_succ_iff hfresh hrest hx
    rw [slideLoop, hold, hx]
    simp only [Option.bind_eq_bind, Option.bind_some]
    by_cases hmem : x ∈ window.erase old
    · rw [if_pos hmem]
      refine ⟨true, rfl, iff_of_true rfl ?_⟩
      exact hasNear_of_not_fresh (i := i + 1) (fun h => hnext.mp h hmem) (by omega)
    · rw [if_neg hmem]
      have hgrown := hrest.insert (Nat.sub_le i k) hx
      rw [show i - k = i + 1 - k - 1 by omega] at hgrown
      exact ih (hnext.mpr hmem) (by omega) hgrown (by omega)

/-- The result is true where there are equal elements at most `k` apart, and false where there are
none. -/
def Right (array : List ℤ) (k : ℕ) : Prop :=
  ∃ b, duplicatesWithinK array k = some b ∧ (b = true ↔ HasNear array k)

theorem right_of_le (hk : k + 1 < 2 ^ 64) (hlen : k + 1 ≤ array.length) : Right array k := by
  have hsize : size (k + 1) = k + 1 := Nat.mod_eq_of_lt hk
  have hempty : Holds array 0 0 ∅ := fun x => by simp
  rw [Right, duplicatesWithinK, hsize, if_neg (by omega)]
  have hzero : Fresh array k 0 := fun _ _ _ _ hb => absurd hb (Nat.not_lt_zero _)
  rcases fillLoop_spec (n := k + 1) hzero hempty (by omega) (by omega) with
    ⟨window, hfill, hfresh, hwindow⟩ | ⟨hfill, hnear⟩
  · rw [hfill]
    rw [Nat.zero_add] at hfresh hwindow
    refine slideLoop_spec hfresh le_rfl ?_ (by omega)
    rwa [show k + 1 - k - 1 = 0 by omega]
  · rw [hfill]
    exact ⟨true, rfl, iff_of_true rfl hnear⟩

/-- Where everything is near, equal elements anywhere count. -/
theorem hasNear_iff_of_lt (hlen : array.length < k + 1) : HasNear array k ↔ ¬ array.Nodup := by
  rw [← not_iff_not, not_not, ← fresh_length_iff, List.nodup_iff_getElem?_ne_getElem?]
  constructor
  · intro h a b hab hb heq
    have hget : array[b]? = some array[b] := List.getElem?_eq_getElem hb
    exact h a b array[b] hab hb (by omega) (heq.trans hget) hget
  · intro h a b x hab hb _ ha hbx
    exact h a b hab hb (ha.trans hbx.symm)

/-- The result is wrong where the window does not fit into an array with duplicates. -/
theorem right_iff_nodup (hk : k + 1 < 2 ^ 64) :
    Right array k ↔ k + 1 ≤ array.length ∨ array.Nodup := by
  by_cases hlen : k + 1 ≤ array.length
  · exact iff_of_true (right_of_le hk hlen) (.inl hlen)
  · have hsize : size (k + 1) = k + 1 := Nat.mod_eq_of_lt hk
    rw [or_iff_right hlen, Right, duplicatesWithinK, hsize, if_pos (by omega),
      hasNear_iff_of_lt (by omega)]
    constructor
    · rintro ⟨b, hb, hiff⟩
      obtain rfl := Option.some.inj hb
      exact not_not.mp fun hdup => Bool.false_ne_true (hiff.mpr hdup)
    · exact fun hnodup => ⟨false, rfl, iff_of_false Bool.false_ne_true (not_not_intro hnodup)⟩

theorem right_iff_nodup_four : Right [4, 7, 4, 1] 2 :=
  (right_iff_nodup (by decide)).mpr (.inl (by decide))

/-- Equal neighbours in an array of two elements, with `k = 2`. -/
theorem not_right_two : HasNear [1, 1] 2 ∧ duplicatesWithinK [1, 1] 2 = some false ∧
    ¬ Right [1, 1] 2 := by
  have hnear : HasNear [1, 1] 2 := ⟨0, 1, 1, by decide, by decide, rfl, rfl⟩
  have hfalse : duplicatesWithinK [1, 1] 2 = some false := by decide
  refine ⟨hnear, hfalse, ?_⟩
  rintro ⟨b, hb, hiff⟩
  rw [hfalse] at hb
  obtain rfl := Option.some.inj hb
  exact Bool.false_ne_true (hiff.mpr hnear)

end InterviewQuestions.DuplicatesWithinK

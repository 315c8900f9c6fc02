import Mathlib.Algebra.BigOperators.Group.List.Basic
import Mathlib.Algebra.Order.Field.Rat
import Mathlib.Data.List.Nodup
import Mathlib.Data.Nat.Choose.Basic
import Mathlib.Data.Rat.Cast.Defs
import Mathlib.Tactic.Common
import Mathlib.Tactic.FieldSimp
import Mathlib.Tactic.Ring

/-! Independent draws, each uniform among the numbers below its own size. All sequences of them are
equally likely, so that probabilities come from counting. -/
namespace InterviewQuestions.Library.Draws

variable {sizes ds : List ℕ} {p q : List ℕ → Prop} [DecidablePred p] [DecidablePred q]
  {n b low high : ℕ}

/-- The sequences with a number below each of the sizes. -/
def all : List ℕ → List (List ℕ)
  | [] => [[]]
  | n :: sizes => (List.range n).flatMap fun d => (all sizes).map (d :: ·)

theorem mem_all : ds ∈ all sizes ↔ List.Forall₂ (· < ·) ds sizes := by
  induction sizes generalizing ds with
  | nil => simp [all]
  | cons n sizes ih =>
    simp only [all, List.mem_flatMap, List.mem_range, List.mem_map, ih]
    constructor
    · rintro ⟨d, hd, ds, hds, rfl⟩
      exact .cons hd hds
    · rintro (_ | ⟨hd, hds⟩)
      exact ⟨_, hd, _, hds, rfl⟩

theorem exists_cons_of_mem_all (h : ds ∈ all (n :: sizes)) :
    ∃ d ds', ds = d :: ds' ∧ d < n ∧ ds' ∈ all sizes := by
  obtain _ | ⟨hd, hds⟩ := mem_all.mp h
  exact ⟨_, _, rfl, hd, mem_all.mpr hds⟩

theorem nodup_all (sizes : List ℕ) : (all sizes).Nodup := by
  induction sizes with
  | nil => exact List.nodup_singleton []
  | cons n sizes ih =>
    rw [all, List.nodup_flatMap]
    refine ⟨fun d _ => ih.map (List.cons_injective), ?_⟩
    refine List.nodup_range.imp fun {d d'} hne ds hds hds' => ?_
    obtain ⟨_, -, rfl⟩ := List.mem_map.mp hds
    obtain ⟨_, -, heq⟩ := List.mem_map.mp hds'
    exact hne (List.cons.inj heq).1.symm

/-- How many of the sequences have the property. -/
def count (sizes : List ℕ) (p : List ℕ → Prop) [DecidablePred p] : ℕ :=
  (all sizes).countP fun ds => p ds

def probability (sizes : List ℕ) (p : List ℕ → Prop) [DecidablePred p] : ℚ :=
  count sizes p / (all sizes).length

theorem count_cons (n : ℕ) (sizes : List ℕ) (p : List ℕ → Prop) [DecidablePred p] :
    count (n :: sizes) p = ((List.range n).map fun d => count sizes fun ds => p (d :: ds)).sum := by
  unfold count
  rw [all, List.countP_flatMap]
  congr 1
  refine List.map_congr_left fun d _ => ?_
  rw [Function.comp_apply, List.countP_map]
  rfl

theorem count_singleton (n : ℕ) (p : List ℕ → Prop) [DecidablePred p] :
    count [n] p = (List.range n).countP fun d => p [d] := by
  have hall : all [n] = (List.range n).map fun d => [d] := List.map_eq_flatMap.symm
  rw [count, hall, List.countP_map]
  rfl

theorem count_congr (h : ∀ ds ∈ all sizes, p ds ↔ q ds) : count sizes p = count sizes q :=
  List.countP_congr fun ds hds => by simpa using h ds hds

theorem count_eq_zero (h : ∀ ds ∈ all sizes, ¬ p ds) : count sizes p = 0 :=
  List.countP_eq_zero.mpr fun ds hds => by simpa using h ds hds

theorem sum_map_const {f : ℕ → ℕ} {xs : List ℕ} (h : ∀ x ∈ xs, f x = b) :
    (xs.map f).sum = xs.length * b := by
  rw [List.map_congr_left h, List.map_const', List.sum_replicate_nat]

theorem length_all (sizes : List ℕ) : (all sizes).length = sizes.prod := by
  induction sizes with
  | nil => rfl
  | cons n sizes ih =>
    have hconst : ∀ d ∈ List.range n, ((all sizes).map (d :: ·)).length = sizes.prod := by
      intro d _
      rw [List.length_map, ih]
    rw [all, List.length_flatMap, sum_map_const hconst, List.length_range, List.prod_cons]

theorem count_eq_prod (h : ∀ ds ∈ all sizes, p ds) : count sizes p = sizes.prod := by
  rw [← length_all]
  exact List.countP_eq_length.mpr fun ds hds => decide_eq_true (h ds hds)

/-- From `b` on the first number does not matter. -/
theorem count_split (hb : b ≤ n)
    (hhigh : ∀ d, b ≤ d → d < n → (count sizes fun ds => p (d :: ds)) = high) :
    count (n :: sizes) p = count (b :: sizes) p + (n - b) * high := by
  have hrange : List.range n = List.range b ++ (List.range (n - b)).map (b + ·) := by
    rw [← List.range_add, Nat.add_sub_cancel' hb]
  have hrest : ∀ d ∈ List.range (n - b), (count sizes fun ds => p ((b + d) :: ds)) = high := by
    intro d hd
    have hlt := List.mem_range.mp hd
    exact hhigh (b + d) (Nat.le_add_right b d) (by omega)
  rw [count_cons, count_cons, hrange, List.map_append, List.sum_append, List.map_map]
  exact congrArg _ ((sum_map_const hrest).trans (by rw [List.length_range]))

theorem count_const (h : ∀ d < n, (count sizes fun ds => p (d :: ds)) = low) :
    count (n :: sizes) p = n * low := by
  rw [count_cons, sum_map_const fun d hd => h d (List.mem_range.mp hd), List.length_range]

/-- Only whether the first number is below `b` matters. -/
theorem count_threshold (hb : b ≤ n)
    (hlow : ∀ d < b, (count sizes fun ds => p (d :: ds)) = low)
    (hhigh : ∀ d, b ≤ d → d < n → (count sizes fun ds => p (d :: ds)) = high) :
    count (n :: sizes) p = b * low + (n - b) * high := by
  rw [count_split hb hhigh, count_const hlow]

/-- The first number alone decides. -/
theorem count_head (r : ℕ → Prop) [DecidablePred r] (h : ∀ d < n, ∀ ds, p (d :: ds) ↔ r d) :
    count (n :: sizes) p = (List.range n).countP (fun d => r d) * sizes.prod := by
  have hsum (xs : List ℕ) (hxs : ∀ d ∈ xs, d < n) :
      (xs.map fun d => count sizes fun ds => p (d :: ds)).sum =
        xs.countP (fun d => r d) * sizes.prod := by
    induction xs with
    | nil => rw [List.map_nil, List.sum_nil, List.countP_nil, Nat.zero_mul]
    | cons d xs ih =>
      obtain ⟨hd, hxs⟩ := List.forall_mem_cons.mp hxs
      rw [List.map_cons, List.sum_cons, ih hxs, List.countP_cons, Nat.add_mul, Nat.add_comm]
      congr 1
      by_cases hr : r d
      · rw [if_pos (decide_eq_true hr), Nat.one_mul]
        exact count_eq_prod fun ds _ => (h d hd ds).mpr hr
      · rw [if_neg (by simpa using hr), Nat.zero_mul]
        exact count_eq_zero fun ds _ => hr ∘ (h d hd ds).mp
  rw [count_cons, hsum _ fun d => List.mem_range.mp]

end InterviewQuestions.Library.Draws

/-! Selection sampling: one candidate after the other is taken or passed over, and it is taken with
the probability that is the share of what is missing in what remains. -/
namespace InterviewQuestions.Library.SelectionSampling

open Draws

/-- The candidates from `i` on that are taken while `missing` of them are, each with its own
draw. -/
def picks : List ℕ → ℕ → ℕ → List ℕ
  | [], _, _ => []
  | _ :: _, 0, _ => []
  | d :: ds, missing + 1, i =>
      if d < missing + 1 then i :: picks ds missing (i + 1) else picks ds (missing + 1) (i + 1)

/-- The numbers of candidates that remain. -/
def falling : ℕ → List ℕ
  | 0 => []
  | n + 1 => (n + 1) :: falling n

variable {ds s : List ℕ} {missing remaining i v : ℕ}

theorem picks_zero (ds : List ℕ) (i : ℕ) : picks ds 0 i = [] := by
  cases ds <;> rfl

theorem prod_falling (n : ℕ) : (falling n).prod = n.factorial := by
  induction n with
  | zero => rfl
  | succ n ih => rw [falling, List.prod_cons, ih, Nat.factorial_succ]

/-- As many are taken as were missing: the last ones have to be. -/
theorem length_picks (hds : ds ∈ all (falling remaining)) (h : missing ≤ remaining) :
    (picks ds missing i).length = missing := by
  induction remaining generalizing ds missing i with
  | zero => rw [Nat.le_zero.mp h, picks_zero, List.length_nil]
  | succ remaining ih =>
    obtain ⟨d, ds, rfl, hd, hds⟩ := exists_cons_of_mem_all hds
    cases missing with
    | zero => rfl
    | succ missing =>
      rw [picks]
      split
      · rw [List.length_cons, ih hds (Nat.le_of_succ_le_succ h)]
      · exact ih hds (by omega)

theorem mem_picks (hds : ds ∈ all (falling remaining)) (hv : v ∈ picks ds missing i) :
    i ≤ v ∧ v < i + remaining := by
  induction remaining generalizing ds missing i with
  | zero =>
    rw [List.mem_singleton.mp hds] at hv
    cases hv
  | succ remaining ih =>
    obtain ⟨d, ds, rfl, hd, hds⟩ := exists_cons_of_mem_all hds
    cases missing with
    | zero => cases hv
    | succ missing =>
      rw [picks] at hv
      split at hv
      · rcases List.mem_cons.mp hv with rfl | hv
        · omega
        · have hrange := ih hds hv
          omega
      · have hrange := ih hds hv
        omega

theorem sorted_picks (hds : ds ∈ all (falling remaining)) :
    (picks ds missing i).Pairwise (· < ·) := by
  induction remaining generalizing ds missing i with
  | zero =>
    rw [List.mem_singleton.mp hds]
    exact .nil
  | succ remaining ih =>
    obtain ⟨d, ds, rfl, hd, hds⟩ := exists_cons_of_mem_all hds
    cases missing with
    | zero => exact .nil
    | succ missing =>
      rw [picks]
      split
      · exact (ih hds).cons fun v hv => (mem_picks hds hv).1
      · exact ih hds

/-- Increasing numbers from `i` on fit into the candidates that remain. -/
theorem length_le_of_sorted (hs : s.Pairwise (· < ·)) (hmem : ∀ v ∈ s, i ≤ v ∧ v < i + remaining) :
    s.length ≤ remaining := by
  have hsub : s ⊆ List.range' i remaining := fun v hv => List.mem_range'_1.mpr (hmem v hv)
  have hnodup : s.Nodup := hs.imp ne_of_lt
  simpa using (List.subperm_of_subset hnodup hsub).length_le

theorem count_picks_zero (remaining i : ℕ) :
    (count (falling remaining) fun ds => picks ds 0 i = []) = remaining.factorial := by
  rw [count_eq_prod fun ds _ => picks_zero ds i, prod_falling]

/-- The first candidate is among those to be taken. -/
theorem count_picks_first (h : missing ≤ remaining) (s : List ℕ) :
    (count (falling (remaining + 1)) fun ds => picks ds (missing + 1) i = i :: s) =
      (missing + 1) * count (falling remaining) fun ds => picks ds missing (i + 1) = s := by
  have htaken (d : ℕ) (hd : d < missing + 1) :
      (count (falling remaining) fun ds => picks (d :: ds) (missing + 1) i = i :: s) =
        count (falling remaining) fun ds => picks ds missing (i + 1) = s := by
    apply count_congr
    intro ds _
    rw [picks, if_pos hd, List.cons.injEq]
    exact ⟨And.right, fun heq => ⟨rfl, heq⟩⟩
  have hpassed (d : ℕ) (hd : missing + 1 ≤ d) (_ : d < remaining + 1) :
      (count (falling remaining) fun ds => picks (d :: ds) (missing + 1) i = i :: s) = 0 := by
    apply count_eq_zero
    intro ds hds heq
    rw [picks, if_neg (Nat.not_lt.mpr hd)] at heq
    have hrange := mem_picks hds (heq ▸ List.mem_cons_self)
    omega
  rw [falling, count_threshold (Nat.succ_le_succ h) htaken hpassed, Nat.mul_zero, Nat.add_zero]

/-- The first candidate is not among them. -/
theorem count_picks_later (h : missing ≤ remaining) (hs : i ∉ s) :
    (count (falling (remaining + 1)) fun ds => picks ds (missing + 1) i = s) =
      (remaining - missing) *
        count (falling remaining) fun ds => picks ds (missing + 1) (i + 1) = s := by
  have htaken (d : ℕ) (hd : d < missing + 1) :
      (count (falling remaining) fun ds => picks (d :: ds) (missing + 1) i = s) = 0 := by
    apply count_eq_zero
    intro ds _ heq
    rw [picks, if_pos hd] at heq
    exact hs (heq ▸ List.mem_cons_self)
  have hpassed (d : ℕ) (hd : missing + 1 ≤ d) (_ : d < remaining + 1) :
      (count (falling remaining) fun ds => picks (d :: ds) (missing + 1) i = s) =
        count (falling remaining) fun ds => picks ds (missing + 1) (i + 1) = s := by
    apply count_congr
    intro ds _
    rw [picks, if_neg (Nat.not_lt.mpr hd)]
  rw [falling, count_threshold (Nat.succ_le_succ h) htaken hpassed, Nat.mul_zero, Nat.zero_add,
    Nat.succ_sub_succ]

/-- Every increasing list of `missing` of the candidates is taken in equally many cases. -/
theorem count_picks (hs : s.Pairwise (· < ·)) (hlen : s.length = missing)
    (hmem : ∀ v ∈ s, i ≤ v ∧ v < i + remaining) :
    (count (falling remaining) fun ds => picks ds missing i = s) =
      missing.factorial * (remaining - missing).factorial := by
  have hle := length_le_of_sorted hs hmem
  induction remaining generalizing missing i s with
  | zero =>
    obtain rfl := List.length_eq_zero_iff.mp (Nat.le_zero.mp hle)
    subst hlen
    exact count_picks_zero 0 i
  | succ remaining ih =>
    cases missing with
    | zero =>
      obtain rfl := List.length_eq_zero_iff.mp hlen
      rw [count_picks_zero, Nat.factorial_zero, Nat.one_mul, Nat.sub_zero]
    | succ missing =>
      by_cases hi : i ∈ s
      · cases s with
        | nil => cases hi
        | cons a s =>
          obtain ⟨ha, hs'⟩ := List.pairwise_cons.mp hs
          obtain ⟨hai, hmem'⟩ := List.forall_mem_cons.mp hmem
          have heq : i = a := by
            rcases List.mem_cons.mp hi with heq | hi
            · exact heq
            · exact absurd (ha i hi) (Nat.not_lt.mpr hai.1)
          subst heq
          have hrest : ∀ v ∈ s, i + 1 ≤ v ∧ v < i + 1 + remaining := by
            intro v hv
            have hlow := ha v hv
            have hhigh := hmem' v hv
            omega
          have hlen' : s.length = missing := Nat.succ.inj hlen
          rw [count_picks_first (by omega), ih hs' hlen' hrest (length_le_of_sorted hs' hrest),
            Nat.factorial_succ, Nat.mul_assoc, Nat.add_sub_add_right]
      · have hrest : ∀ v ∈ s, i + 1 ≤ v ∧ v < i + 1 + remaining := by
          intro v hv
          have hrange := hmem v hv
          have hne : v ≠ i := ne_of_mem_of_not_mem hv hi
          omega
        have hfit := length_le_of_sorted hs hrest
        obtain ⟨k, hk⟩ := Nat.exists_eq_add_of_le (hlen ▸ hfit)
        have hpassed : remaining - missing = k + 1 := by omega
        have hleft : remaining - (missing + 1) = k := by omega
        have hgoal : remaining + 1 - (missing + 1) = k + 1 := by omega
        rw [count_picks_later (by omega) hi, ih hs hlen hrest hfit, hpassed, hleft, hgoal,
          Nat.factorial_succ k]
        ring

theorem probability_picks (hs : s.Pairwise (· < ·)) (hlen : s.length = missing)
    (hmem : ∀ v ∈ s, i ≤ v ∧ v < i + remaining) :
    (probability (falling remaining) fun ds => picks ds missing i = s) =
      1 / remaining.choose missing := by
  have hle : missing ≤ remaining := hlen ▸ length_le_of_sorted hs hmem
  have hchoose := Nat.choose_mul_factorial_mul_factorial hle
  have hpos : (0 : ℚ) < remaining.choose missing := Nat.cast_pos.mpr (Nat.choose_pos hle)
  have hfact : (0 : ℚ) < remaining.factorial := Nat.cast_pos.mpr (Nat.factorial_pos remaining)
  rw [probability, count_picks hs hlen hmem, length_all, prod_falling, div_eq_div_iff hfact.ne'
    hpos.ne', ← hchoose]
  push_cast
  ring

end InterviewQuestions.Library.SelectionSampling

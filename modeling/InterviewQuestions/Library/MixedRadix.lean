import Mathlib.Algebra.BigOperators.Group.List.Basic
import Mathlib.Algebra.Order.BigOperators.GroupWithZero.List
import Mathlib.Algebra.Order.Ring.Nat
import Mathlib.Data.List.Forall2
import Mathlib.Data.Nat.Digits.Lemmas

/-! Positional numbers where each place has a radix of its own, the largest place first. -/
namespace InterviewQuestions.Library.MixedRadix

/-- What is left after the places before, and of this the number of times that the places behind
it fit. -/
def digits : List ℕ → ℕ → List ℕ
  | [], _ => []
  | _ :: radices, n => n / radices.prod :: digits radices (n % radices.prod)

def value : List ℕ → List ℕ → ℕ
  | _ :: radices, d :: ds => d * radices.prod + value radices ds
  | _, _ => 0

variable {radices ds : List ℕ} {n : ℕ}

theorem prod_pos (h : ∀ r ∈ radices, 0 < r) : 0 < radices.prod :=
  List.prod_pos h

theorem digits_lt (h : ∀ r ∈ radices, 0 < r) (hn : n < radices.prod) :
    List.Forall₂ (· < ·) (digits radices n) radices := by
  induction radices generalizing n with
  | nil => exact .nil
  | cons r radices ih =>
    have hrest : ∀ r ∈ radices, 0 < r := fun r hr => h r (List.mem_cons_of_mem _ hr)
    rw [List.prod_cons] at hn
    exact .cons (Nat.div_lt_of_lt_mul (by rwa [Nat.mul_comm]))
      (ih hrest (Nat.mod_lt n (prod_pos hrest)))

theorem value_digits (h : ∀ r ∈ radices, 0 < r) (hn : n < radices.prod) :
    value radices (digits radices n) = n := by
  induction radices generalizing n with
  | nil =>
    rw [List.prod_nil] at hn
    exact (Nat.lt_one_iff.mp hn).symm
  | cons r radices ih =>
    have hrest : ∀ r ∈ radices, 0 < r := fun r hr => h r (List.mem_cons_of_mem _ hr)
    rw [digits, value, ih hrest (Nat.mod_lt n (prod_pos hrest))]
    exact Nat.div_add_mod' n radices.prod

theorem value_lt (h : List.Forall₂ (· < ·) ds radices) : value radices ds < radices.prod := by
  induction h with
  | nil => exact Nat.one_pos
  | @cons d r ds radices hd _ ih =>
    rw [value, List.prod_cons]
    calc d * radices.prod + value radices ds
      _ < d * radices.prod + radices.prod := Nat.add_lt_add_left ih _
      _ = (d + 1) * radices.prod := (Nat.succ_mul d _).symm
      _ ≤ r * radices.prod := Nat.mul_le_mul_right _ hd

theorem digits_value (h : List.Forall₂ (· < ·) ds radices) :
    digits radices (value radices ds) = ds := by
  induction h with
  | nil => rfl
  | @cons d r ds radices hd hrest ih =>
    have hlt := value_lt hrest
    have hpos : 0 < radices.prod := by omega
    rw [value, digits, Nat.mul_comm d, Nat.mul_add_div hpos, Nat.div_eq_of_lt hlt,
      Nat.mul_add_mod, Nat.mod_eq_of_lt hlt, ih, Nat.add_zero]

end InterviewQuestions.Library.MixedRadix

/-! A counter of digits from `lo` to `hi`, the last one turning fastest. From its lowest
position on it passes each position once. -/
namespace InterviewQuestions.Library.Odometer

variable {lo hi n k : ℕ} {ds next p q : List ℕ} {visited : List (List ℕ)}

/-- The positions of a counter with `n` digits. -/
def Position (lo hi n : ℕ) (ds : List ℕ) : Prop :=
  ds.length = n ∧ ∀ d ∈ ds, lo ≤ d ∧ d ≤ hi

/-- The last digit that is not at its highest goes up, and the digits after it start again. -/
def Turn (lo hi : ℕ) (ds next : List ℕ) : Prop :=
  ∃ front d k, ds = front ++ d :: List.replicate k hi ∧ d < hi ∧
    next = front ++ (d + 1) :: List.replicate k lo

/-- The positions passed from one on, up to the last. -/
inductive Passes (lo hi n : ℕ) : List ℕ → List (List ℕ) → Prop where
  | last : Passes lo hi n (List.replicate n hi) [List.replicate n hi]
  | turn {ds next : List ℕ} {visited : List (List ℕ)} (hturn : Turn lo hi ds next)
      (hrest : Passes lo hi n next visited) : Passes lo hi n ds (ds :: visited)

theorem Passes.cons (h : Passes lo hi n ds visited) : visited = ds :: visited.tail := by
  cases h <;> rfl

theorem Turn.position (h : Turn lo hi ds next) (hds : Position lo hi n ds) (hlo : lo ≤ hi) :
    Position lo hi n next := by
  obtain ⟨front, d, k, rfl, hd, rfl⟩ := h
  constructor
  · rw [← hds.1]
    simp
  · intro e he
    rcases List.mem_append.mp he with hfront | htail
    · exact hds.2 e (List.mem_append_left _ hfront)
    · have hbelow := (hds.2 d (by simp)).1
      rcases List.mem_cons.mp htail with rfl | hlow
      · omega
      · rw [List.eq_of_mem_replicate hlow]
        omega

theorem last_or_turn (hds : Position lo hi n ds) :
    ds = List.replicate n hi ∨ ∃ next, Turn lo hi ds next := by
  obtain ⟨rfl, hdigits⟩ := hds
  induction ds with
  | nil => exact Or.inl rfl
  | cons d ds ih =>
    rcases ih fun e he => hdigits e (List.mem_cons_of_mem d he) with hlast | ⟨next, hturn⟩
    · by_cases hd : d = hi
      · apply Or.inl
        rw [List.length_cons, List.replicate_succ, ← hlast, hd]
      · have hle := (hdigits d List.mem_cons_self).2
        exact Or.inr ⟨_, [], d, ds.length, by rw [List.nil_append, ← hlast], by omega, rfl⟩
    · obtain ⟨front, e, k, hds, he, _⟩ := hturn
      exact Or.inr ⟨_, d :: front, e, k, by rw [hds]; rfl, he, rfl⟩

/-! ## Ranks -/

/-- How many positions come before. -/
def rank (lo hi : ℕ) (ds : List ℕ) : ℕ := Nat.ofDigits (hi + 1 - lo) (ds.reverse.map (· - lo))

theorem rank_append (front back : List ℕ) : rank lo hi (front ++ back) =
    rank lo hi back + (hi + 1 - lo) ^ back.length * rank lo hi front := by
  rw [rank, List.reverse_append, List.map_append, Nat.ofDigits_append, List.length_map,
    List.length_reverse, rank, rank]

theorem rank_cons (d : ℕ) (ds : List ℕ) : rank lo hi (d :: ds) =
    rank lo hi ds + (hi + 1 - lo) ^ ds.length * (d - lo) := by
  have hsingle : rank lo hi [d] = d - lo := by simp [rank]
  rw [← List.singleton_append, rank_append, hsingle]

theorem rank_lows (n : ℕ) : rank lo hi (List.replicate n lo) = 0 := by
  induction n with
  | zero => rfl
  | succ n ih => rw [List.replicate_succ, rank_cons, ih, Nat.sub_self, Nat.mul_zero]

theorem rank_highs (hlo : lo ≤ hi) (n : ℕ) :
    rank lo hi (List.replicate n hi) + 1 = (hi + 1 - lo) ^ n := by
  induction n with
  | zero => rfl
  | succ n ih =>
    have hbase : hi + 1 - lo = hi - lo + 1 := by omega
    rw [List.replicate_succ, rank_cons, List.length_replicate, Nat.add_right_comm, ih, pow_succ]
    conv_rhs => rw [hbase, Nat.mul_add, Nat.mul_one, ← hbase]
    exact Nat.add_comm _ _

theorem rank_lt (hlo : lo ≤ hi) (hds : Position lo hi n ds) :
    rank lo hi ds < (hi + 1 - lo) ^ n := by
  obtain ⟨rfl, hdigits⟩ := hds
  induction ds with
  | nil => exact Nat.one_pos
  | cons d ds ih =>
    have htail := ih fun e he => hdigits e (List.mem_cons_of_mem d he)
    have hd := hdigits d List.mem_cons_self
    have hle : (hi + 1 - lo) ^ ds.length * (d - lo + 1) ≤
        (hi + 1 - lo) ^ ds.length * (hi + 1 - lo) := Nat.mul_le_mul_left _ (by omega)
    rw [rank_cons, List.length_cons, pow_succ]
    rw [Nat.mul_add, Nat.mul_one] at hle
    omega

theorem rank_injective (hp : Position lo hi n p) (hq : Position lo hi n q)
    (h : rank lo hi p = rank lo hi q) : p = q := by
  obtain ⟨rfl, hdigits⟩ := hp
  induction p generalizing q with
  | nil => exact (List.length_eq_zero_iff.mp hq.1).symm
  | cons d p ih =>
    cases q with
    | nil => cases hq.1
    | cons e q =>
      have hd := hdigits d List.mem_cons_self
      have he := hq.2 e List.mem_cons_self
      have hlength : q.length = p.length := Nat.succ.inj hq.1
      have hp : Position lo hi p.length p :=
        ⟨rfl, fun c hc => hdigits c (List.mem_cons_of_mem d hc)⟩
      have hq : Position lo hi p.length q :=
        ⟨hlength, fun c hc => hq.2 c (List.mem_cons_of_mem e hc)⟩
      have hlo : lo ≤ hi := hd.1.trans hd.2
      have hplt := rank_lt hlo hp
      have hqlt := rank_lt hlo hq
      rw [rank_cons, rank_cons, hlength] at h
      have hpos : 0 < (hi + 1 - lo) ^ p.length := Nat.pow_pos (by omega)
      have hmod := congrArg (· % (hi + 1 - lo) ^ p.length) h
      simp only [Nat.add_mul_mod_self_left, Nat.mod_eq_of_lt hplt, Nat.mod_eq_of_lt hqlt] at hmod
      rw [hmod] at h
      have hdigit := Nat.eq_of_mul_eq_mul_left hpos (Nat.add_left_cancel h)
      rw [ih hmod hp.2 hq, show d = e by omega]

theorem Turn.rank (h : Turn lo hi ds next) (hds : Position lo hi n ds) :
    Odometer.rank lo hi next = Odometer.rank lo hi ds + 1 := by
  obtain ⟨front, d, k, rfl, hd, rfl⟩ := h
  have hlow := (hds.2 d (by simp)).1
  have hhighs := rank_highs (hlow.trans hd.le) k
  have hdigit : d + 1 - lo = d - lo + 1 := by omega
  rw [rank_append, rank_append, rank_cons, rank_cons, rank_lows]
  simp only [List.length_cons, List.length_replicate, hdigit, Nat.mul_add, Nat.mul_one]
  omega

/-! ## All positions -/

/-- What is passed are the positions from the first on, each once. -/
theorem Passes.spec (h : Passes lo hi n ds visited) (hlo : lo ≤ hi) (hds : Position lo hi n ds) :
    visited.Nodup ∧
      ∀ p, p ∈ visited ↔ Position lo hi n p ∧ Odometer.rank lo hi ds ≤ Odometer.rank lo hi p := by
  induction h with
  | last =>
    have hhighs := rank_highs hlo n
    constructor
    · exact List.nodup_singleton _
    · intro p
      rw [List.mem_singleton]
      constructor
      · rintro rfl
        exact ⟨hds, Nat.le_refl _⟩
      · rintro ⟨hp, hle⟩
        have hlt := rank_lt hlo hp
        exact rank_injective hp hds (by omega)
  | @turn ds next visited hturn hrest ih =>
    obtain ⟨hnodup, hmem⟩ := ih (hturn.position hds hlo)
    have hrank := hturn.rank hds
    rw [hrank] at hmem
    constructor
    · rw [List.nodup_cons, hmem]
      exact ⟨fun hin => Nat.not_succ_le_self _ hin.2, hnodup⟩
    · intro p
      rw [List.mem_cons, hmem]
      constructor
      · rintro (rfl | ⟨hp, hle⟩)
        · exact ⟨hds, Nat.le_refl _⟩
        · exact ⟨hp, by omega⟩
      · rintro ⟨hp, hle⟩
        by_cases heq : Odometer.rank lo hi p = Odometer.rank lo hi ds
        · exact Or.inl (rank_injective hp hds heq)
        · exact Or.inr ⟨hp, by omega⟩

theorem exists_passes (hlo : lo ≤ hi) (hds : Position lo hi n ds) :
    ∃ visited, Passes lo hi n ds visited ∧
      visited.length + rank lo hi ds = (hi + 1 - lo) ^ n := by
  generalize hleft : (hi + 1 - lo) ^ n - rank lo hi ds = left
  induction left generalizing ds with
  | zero =>
    have hlt := rank_lt hlo hds
    omega
  | succ left ih =>
    rcases last_or_turn hds with rfl | ⟨next, hturn⟩
    · have hhighs := rank_highs hlo n
      exact ⟨_, .last, by rw [List.length_singleton]; omega⟩
    · have hrank := hturn.rank hds
      obtain ⟨visited, hpasses, hlength⟩ := ih (hturn.position hds hlo) (by omega)
      exact ⟨_, .turn hturn hpasses, by rw [List.length_cons]; omega⟩

end InterviewQuestions.Library.Odometer

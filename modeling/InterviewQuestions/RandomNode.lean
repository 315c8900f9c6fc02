import InterviewQuestions.Library.Sampling
import InterviewQuestions.Library.PointerTree
import Mathlib.Algebra.BigOperators.Group.List.Basic
import Mathlib.Data.Rat.Cast.CharZero

/-! `trees_graphs/random_node/solution.c`. A node is known by its address, and the values that the
calls of `rand()` return are a list. -/
namespace InterviewQuestions.RandomNode

open Library PointerTree Draws

variable {α : Type*}

/-- The choice, `*seen` and the values of `rand()` that are left. There is no result where they run
out. -/
def randomNodeAux (randMax : ℕ) :
    BinaryTree α → Option α → ℕ → List ℕ → Option (Option α × ℕ × List ℕ)
  | .nil, currChoice, seen, rands => some (currChoice, seen, rands)
  | .node _ _ _, _, _, [] => none
  | .node root left right, currChoice, seen, n :: rands => do
      let seen := seen + 1
      let blockSz := randMax / seen
      let currChoice := if n ≥ (seen - 1) * blockSz then some root else currChoice
      let (currChoice, seen, rands) ← randomNodeAux randMax left currChoice seen rands
      randomNodeAux randMax right currChoice seen rands

def randomNode (randMax : ℕ) (root : BinaryTree α) (rands : List ℕ) : Option (Option α) :=
  (randomNodeAux randMax root none 0 rands).map Prod.fst

variable {t : BinaryTree α} {a b : α} {c : Option α} {nodes front back : List α} {ds : List ℕ}
  {randMax s : ℕ}

/-! ## One node after another -/

/-- The number of values with which the node after `s` others is not chosen. -/
def passed (randMax s : ℕ) : ℕ := s * (randMax / (s + 1))

theorem passed_le (randMax s : ℕ) : passed randMax s ≤ randMax + 1 :=
  calc passed randMax s
    _ ≤ (s + 1) * (randMax / (s + 1)) := Nat.mul_le_mul_right _ (Nat.le_succ s)
    _ ≤ randMax := Nat.mul_div_le randMax (s + 1)
    _ ≤ randMax + 1 := Nat.le_succ randMax

def visit (randMax : ℕ) : List α → Option α → ℕ → List ℕ → Option (Option α × ℕ × List ℕ)
  | [], c, s, ds => some (c, s, ds)
  | _ :: _, _, _, [] => none
  | a :: nodes, c, s, d :: ds =>
      visit randMax nodes (if d ≥ passed randMax s then some a else c) (s + 1) ds

theorem visit_append (nodes nodes' : List α) (c : Option α) (s : ℕ) (ds : List ℕ) :
    visit randMax (nodes ++ nodes') c s ds =
      (visit randMax nodes c s ds).bind fun x => visit randMax nodes' x.1 x.2.1 x.2.2 := by
  induction nodes generalizing c s ds with
  | nil => rfl
  | cons a nodes ih =>
    cases ds with
    | nil => rfl
    | cons d ds =>
      rw [List.cons_append, visit, visit, ih]

theorem randomNodeAux_eq (t : BinaryTree α) (c : Option α) (s : ℕ) (ds : List ℕ) :
    randomNodeAux randMax t c s ds = visit randMax (preorder t) c s ds := by
  induction t generalizing c s ds with
  | nil => rfl
  | node a l r ihl ihr =>
    cases ds with
    | nil => rfl
    | cons d ds =>
      rw [randomNodeAux, preorder, visit, visit_append, ihl]
      simp only [Option.bind_eq_bind, ihr]
      rfl

/-- The node that is chosen among those that follow, or `c`. -/
def choice (randMax : ℕ) (nodes : List α) (c : Option α) (s : ℕ) (ds : List ℕ) :
    Option (Option α) :=
  (visit randMax nodes c s ds).map Prod.fst

theorem choice_cons (randMax : ℕ) (a : α) (nodes : List α) (c : Option α) (s d : ℕ)
    (ds : List ℕ) : choice randMax (a :: nodes) c s (d :: ds) =
      choice randMax nodes (if d ≥ passed randMax s then some a else c) (s + 1) ds := rfl

/-! ## Counting -/

variable [DecidableEq α]

/-- The values of `rand()` for the nodes with which `a` is returned. -/
def chosen (randMax : ℕ) (nodes : List α) (c : Option α) (s : ℕ) (a : α) : ℕ :=
  count (List.replicate nodes.length (randMax + 1)) fun ds =>
    choice randMax nodes c s ds = some (some a)

theorem chosen_nil (randMax : ℕ) (c : Option α) (s : ℕ) (a : α) :
    chosen randMax [] c s a = if c = some a then 1 else 0 := by
  simp [chosen, count, all, choice, visit]

theorem chosen_cons (randMax : ℕ) (b : α) (nodes : List α) (c : Option α) (s : ℕ) (a : α) :
    chosen randMax (b :: nodes) c s a =
      passed randMax s * chosen randMax nodes c (s + 1) a +
        (randMax + 1 - passed randMax s) * chosen randMax nodes (some b) (s + 1) a := by
  apply count_threshold (passed_le randMax s)
  · intro d hd
    simp only [choice_cons, if_neg (Nat.not_le.mpr hd)]
    rfl
  · intro d hd _
    simp only [choice_cons, if_pos hd]
    rfl

theorem chosen_other (ha : a ∉ nodes) (hc : c ≠ some a) : chosen randMax nodes c s a = 0 := by
  induction nodes generalizing c s with
  | nil => rw [chosen_nil, if_neg hc]
  | cons b nodes ih =>
    rw [List.mem_cons, not_or] at ha
    obtain ⟨hab, ha⟩ := ha
    have hb : some b ≠ some a := fun h => hab (Option.some.inj h).symm
    rw [chosen_cons, ih ha hc, ih ha hb, Nat.mul_zero, Nat.mul_zero]

/-- The number of ways in which none of `k` nodes is chosen after `s` others. -/
def survivals (randMax : ℕ) : ℕ → ℕ → ℕ
  | _, 0 => 1
  | s, k + 1 => passed randMax s * survivals randMax (s + 1) k

theorem chosen_kept (ha : a ∉ nodes) :
    chosen randMax nodes (some a) s a = survivals randMax s nodes.length := by
  induction nodes generalizing s with
  | nil => rw [chosen_nil, if_pos rfl, List.length_nil, survivals]
  | cons b nodes ih =>
    rw [List.mem_cons, not_or] at ha
    obtain ⟨hab, ha⟩ := ha
    have hb : some b ≠ some a := fun h => hab (Option.some.inj h).symm
    rw [chosen_cons, ih ha, chosen_other ha hb, Nat.mul_zero, Nat.add_zero, List.length_cons,
      survivals]

/-- The node is chosen when its turn comes, and no other after it. -/
theorem chosen_eq (hn : (front ++ a :: back).Nodup) (hc : c ≠ some a) :
    chosen randMax (front ++ a :: back) c s a = (randMax + 1) ^ front.length *
      ((randMax + 1 - passed randMax (s + front.length)) *
        survivals randMax (s + front.length + 1) back.length) := by
  induction front generalizing c s with
  | nil =>
    have ha : a ∉ back := (List.nodup_cons.mp hn).1
    rw [List.nil_append, chosen_cons, chosen_other ha hc, chosen_kept ha, Nat.mul_zero,
      Nat.zero_add, List.length_nil, pow_zero, Nat.one_mul, Nat.add_zero s]
  | cons b front ih =>
    obtain ⟨hb, hn⟩ := List.nodup_cons.mp hn
    have hba : some b ≠ some a := by
      rintro ⟨⟩
      exact hb (List.mem_append_right front List.mem_cons_self)
    have hlen : s + (b :: front).length = s + 1 + front.length := by
      rw [List.length_cons]
      omega
    rw [List.cons_append, chosen_cons, ih hn hc, ih hn hba, ← Nat.add_mul,
      Nat.add_sub_cancel' (passed_le randMax s), hlen, List.length_cons, pow_succ', mul_assoc]

/-! ## The probabilities -/

/-- The probability that `a` is returned when the values of `rand()` are independent, and uniform
from 0 to `RAND_MAX`. -/
def chance (randMax : ℕ) (t : BinaryTree α) (a : α) : ℚ :=
  probability (List.replicate t.numNodes (randMax + 1)) fun rands =>
    randomNode randMax t rands = some (some a)

theorem chance_eq (hpreorder : preorder t = front ++ a :: back) (hn : (preorder t).Nodup) :
    chance randMax t a = ((randMax + 1) ^ front.length *
      ((randMax + 1 - passed randMax front.length) *
        survivals randMax (front.length + 1) back.length) : ℕ) /
          ((randMax + 1) ^ t.numNodes : ℕ) := by
  have hcount : (count (List.replicate t.numNodes (randMax + 1)) fun rands =>
      randomNode randMax t rands = some (some a)) = chosen randMax (preorder t) none 0 a := by
    unfold randomNode chosen choice
    simp only [randomNodeAux_eq, length_preorder]
  rw [hpreorder] at hn
  rw [chance, probability, hcount, length_all, List.prod_replicate, hpreorder,
    chosen_eq hn (Option.some_ne_none a).symm, Nat.zero_add]

/-- All nodes are equally likely. -/
def Fair (randMax : ℕ) (t : BinaryTree α) : Prop :=
  ∀ a ∈ preorder t, chance randMax t a = 1 / t.numNodes

theorem fair_of_one (h : t.numNodes = 1) : Fair randMax t := by
  intro a ha
  have hlen : (preorder t).length = 1 := (length_preorder t).trans h
  obtain ⟨b, hb⟩ := List.length_eq_one_iff.mp hlen
  obtain rfl : a = b := by rwa [hb, List.mem_singleton] at ha
  have hpreorder : preorder t = [] ++ a :: [] := hb
  have hn : (preorder t).Nodup := hb ▸ List.nodup_singleton a
  have hne : ((randMax + 1 : ℕ) : ℚ) ≠ 0 := Nat.cast_ne_zero.mpr (Nat.succ_ne_zero randMax)
  have hpassed : passed randMax 0 = 0 := Nat.zero_mul _
  rw [chance_eq hpreorder hn, h, List.length_nil, hpassed, survivals, pow_zero, pow_one,
    Nat.one_mul, Nat.mul_one, Nat.sub_zero, div_self hne, Nat.cast_one, div_one]

/-- Of the values for the node after `k` others, more than the share that it should have lead to
its choice. -/
theorem lt_accepted (randMax : ℕ) {k : ℕ} (hk : 0 < k) :
    randMax + 1 < (randMax + 1 - passed randMax k) * (k + 1) := by
  have hdiv := Nat.mul_div_le randMax (k + 1)
  have hle := passed_le randMax k
  have hlt : passed randMax k * (k + 1) < (randMax + 1) * k := by
    calc passed randMax k * (k + 1)
      _ = (k + 1) * (randMax / (k + 1)) * k := by
        rw [passed, Nat.mul_right_comm, Nat.mul_comm k, Nat.mul_right_comm]
      _ ≤ randMax * k := Nat.mul_le_mul_right k hdiv
      _ < (randMax + 1) * k := Nat.mul_lt_mul_of_pos_right (Nat.lt_succ_self randMax) hk
  have hsplit : (randMax + 1) * (k + 1) = (randMax + 1) * k + (randMax + 1) := Nat.mul_succ _ k
  rw [Nat.sub_mul, hsplit]
  omega

/-- The last node of several is chosen too often. -/
theorem not_fair (hn : (preorder t).Nodup) (h : 2 ≤ t.numNodes) : ¬ Fair randMax t := by
  intro hfair
  obtain ⟨k, hk⟩ : ∃ k, t.numNodes = k + 1 := Nat.exists_eq_add_of_le' (Nat.one_le_of_lt h)
  have hne : preorder t ≠ [] := by
    rw [← List.length_pos_iff, length_preorder]
    omega
  obtain ⟨front, a, hpreorder⟩ := (List.eq_nil_or_concat' _).resolve_left hne
  have hlen : front.length = k := by
    have hlength := length_preorder t
    rw [hpreorder, List.length_append, List.length_singleton, hk] at hlength
    exact Nat.succ.inj hlength
  have hchance := hfair a (by simp [hpreorder])
  rw [chance_eq hpreorder hn, hlen, hk, List.length_nil, survivals, Nat.mul_one] at hchance
  have hpow : (((randMax + 1) ^ (k + 1) : ℕ) : ℚ) ≠ 0 :=
    Nat.cast_ne_zero.mpr (pow_ne_zero _ (Nat.succ_ne_zero randMax))
  have hsucc : ((k + 1 : ℕ) : ℚ) ≠ 0 := Nat.cast_ne_zero.mpr (Nat.succ_ne_zero k)
  rw [div_eq_div_iff hpow hsucc, one_mul] at hchance
  have hprod : (randMax + 1) ^ k * (randMax + 1 - passed randMax k) * (k + 1) =
      (randMax + 1) ^ (k + 1) := by exact_mod_cast hchance
  rw [pow_succ, mul_assoc] at hprod
  have hblocks := Nat.eq_of_mul_eq_mul_left (Nat.pow_pos (Nat.succ_pos randMax)) hprod
  have hlt := lt_accepted randMax (show 0 < k by omega)
  omega

/-- The choice is fair in the trees with a single node only. -/
theorem fair_iff (hn : (preorder t).Nodup) (ht : t ≠ .nil) (hmax : t.numNodes ≤ randMax) :
    Fair randMax t ↔ t.numNodes = 1 := by
  have hpos : t.numNodes ≠ 0 := by
    intro hzero
    apply ht
    cases t with
    | nil => rfl
    | node a l r => cases hzero
  refine ⟨fun hfair => ?_, fair_of_one⟩
  by_contra hone
  exact not_fair hn (by omega) hfair

theorem fair_iff_one : Fair 32767 (.node 5 .nil .nil) ↔
    (BinaryTree.node 5 .nil .nil).numNodes = 1 :=
  fair_iff (by decide) (by simp) (by decide)

theorem not_fair_two : ¬ Fair 2147483647 (.node 1 (.node 0 .nil .nil) .nil) :=
  not_fair (by decide) (by decide)

end InterviewQuestions.RandomNode

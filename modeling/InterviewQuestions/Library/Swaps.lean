import InterviewQuestions.Library.Rearrangement
import Mathlib.Data.List.Perm.Basic
import Mathlib.Logic.Function.Basic
import Mathlib.Order.Bounds.Basic
import Mathlib.Tactic.Common

/-! Operations that undo themselves and may be done in any order. Each of them is needed at most
once, and in the order that one likes. -/
namespace InterviewQuestions.Library

variable {σ ι : Type*} {op : ι → σ → σ}

/-- `op i` for each `i` of the list in turn. -/
def perform (op : ι → σ → σ) (ops : List ι) (s : σ) : σ := ops.foldl (fun s i => op i s) s

@[simp] theorem perform_nil (op : ι → σ → σ) (s : σ) : perform op [] s = s := rfl

@[simp] theorem perform_cons (op : ι → σ → σ) (i : ι) (ops : List ι) (s : σ) :
    perform op (i :: ops) s = perform op ops (op i s) := rfl

theorem perform_append (op : ι → σ → σ) (ops ops' : List ι) (s : σ) :
    perform op (ops ++ ops') s = perform op ops' (perform op ops s) :=
  List.foldl_append

theorem perform_perm (hcomm : ∀ i j s, op i (op j s) = op j (op i s)) {ops ops' : List ι}
    (h : ops.Perm ops') (s : σ) : perform op ops s = perform op ops' s :=
  h.foldl_eq' (fun i _ j _ s => hcomm j i s) s

/-- What is done over and over again is done once or not at all. -/
theorem perform_replicate (hinv : ∀ i, Function.Involutive (op i)) (i : ι) (n : ℕ) (s : σ) :
    perform op (List.replicate n i) s = s ∨ perform op (List.replicate n i) s = op i s := by
  induction n generalizing s with
  | zero => exact .inl rfl
  | succ n ih =>
    rw [List.replicate_succ, perform_cons]
    rcases ih (op i s) with h | h
    · exact .inr h
    · rw [h, hinv i s]
      exact .inl rfl

/-- A sequence of operations has the effect of some of them, each done once. -/
theorem exists_sublist_perform [DecidableEq ι] (hinv : ∀ i, Function.Involutive (op i))
    (hcomm : ∀ i j s, op i (op j s) = op j (op i s)) {all ops : List ι} (h : ∀ i ∈ ops, i ∈ all)
    (s : σ) : ∃ once, once.Sublist all ∧ perform op ops s = perform op once s := by
  induction all generalizing ops s with
  | nil =>
    obtain rfl := List.eq_nil_iff_forall_not_mem.mpr fun i hi => List.not_mem_nil (h i hi)
    exact ⟨[], .slnil, rfl⟩
  | cons i all ih =>
    have hperm : (List.replicate (ops.count i) i ++ ops.filter (· ≠ i)).Perm ops := by
      rw [← List.filter_eq]
      simpa using List.filter_append_perm (· = i) ops
    have hrest : ∀ j ∈ ops.filter (· ≠ i), j ∈ all := by
      intro j hj
      have hj := List.mem_filter.mp hj
      exact (List.mem_cons.mp (h j hj.1)).resolve_left (of_decide_eq_true hj.2)
    rw [← perform_perm hcomm hperm, perform_append]
    rcases perform_replicate hinv i (ops.count i) s with hs | hs
    · rw [hs]
      obtain ⟨once, hsub, heq⟩ := ih hrest s
      exact ⟨once, hsub.cons i, heq⟩
    · rw [hs]
      obtain ⟨once, hsub, heq⟩ := ih hrest (op i s)
      exact ⟨i :: once, hsub.cons_cons i, heq⟩

end InterviewQuestions.Library

/-! Sequences of swaps. The shortest one can be found among those that settle one place after
another, from the front, with at most one swap for each. -/
namespace InterviewQuestions.Library

variable {α : Type*}

/-- `n` swaps of two places each turn one array into the other. -/
inductive Swapped : ℕ → List α → List α → Prop
  | nil (xs : List α) : Swapped 0 xs xs
  | snoc (h : Swapped n xs ys) (hij : i ≠ j) (hswap : swap ys i j = some zs) : Swapped (n + 1) xs zs

/-- The same, where each place is settled in turn: it keeps its entry, or it is swapped with a later
place. -/
inductive SwappedInOrder : ℕ → List α → List α → Prop
  | nil : SwappedInOrder 0 [] []
  | keep (x : α) (h : SwappedInOrder n xs ys) : SwappedInOrder n (x :: xs) (x :: ys)
  | exchange (ha : xs[a]? = some y) (h : SwappedInOrder n (xs.set a x) ys) :
      SwappedInOrder (n + 1) (x :: xs) (y :: ys)

variable {xs ys zs : List α} {x y z : α} {a b i j m n : ℕ}

theorem swap_cons_zero (x : α) (ha : xs[a]? = some y) :
    swap (x :: xs) 0 (a + 1) = some (y :: xs.set a x) := by
  unfold swap
  rw [List.getElem?_cons_succ, ha]
  rfl

theorem swap_cons (x : α) (xs : List α) (i j : ℕ) :
    swap (x :: xs) (i + 1) (j + 1) = (swap xs i j).map (x :: ·) := by
  have h := swap_append [x] xs i j
  rw [List.length_singleton, Nat.add_comm 1 i, Nat.add_comm 1 j] at h
  exact h

theorem swap_append_cons (front : List α) (x : α) (ha : xs[a]? = some y) :
    swap (front ++ x :: xs) front.length (front.length + 1 + a) =
      some (front ++ y :: xs.set a x) := by
  have h := swap_append front (x :: xs) 0 (a + 1)
  rw [swap_cons_zero x ha] at h
  rw [Nat.add_assoc, Nat.add_comm 1 a]
  exact h

theorem set_set_getElem? (x : α) (ha : xs[a]? = some y) : (xs.set a x).set a y = xs := by
  obtain ⟨hlt, rfl⟩ := List.getElem?_eq_some_iff.mp ha
  rw [List.set_set]
  exact List.set_getElem_self hlt

theorem swap_append_cons_back (front : List α) (x : α) (ha : xs[a]? = some y) :
    swap (front ++ y :: xs.set a x) front.length (front.length + 1 + a) =
      some (front ++ x :: xs) := by
  have hx : (xs.set a x)[a]? = some x :=
    List.getElem?_set_self (List.getElem?_eq_some_iff.mp ha).1
  rw [swap_append_cons front y hx, set_set_getElem? x ha]

theorem lt_length_of_swap (h : swap xs i j = some ys) : i < xs.length ∧ j < xs.length := by
  obtain ⟨x, hx, h⟩ := Option.bind_eq_some_iff.mp h
  obtain ⟨y, hy, -⟩ := Option.bind_eq_some_iff.mp h
  exact ⟨(List.getElem?_eq_some_iff.mp hx).1, (List.getElem?_eq_some_iff.mp hy).1⟩

theorem getElem?_of_swap (h : swap xs i j = some ys) (k : ℕ) :
    ys[k]? = xs[Equiv.swap i j k]? := by
  obtain ⟨hi, hj⟩ := lt_length_of_swap h
  obtain ⟨ys', hswap, -, hget⟩ := exists_swap hi hj
  cases h.symm.trans hswap
  exact hget k

/-- An entry is overwritten before the swap in the place that it comes from. -/
theorem swap_set (h : swap xs i j = some ys) (b : ℕ) (v : α) :
    swap (xs.set (Equiv.swap i j b) v) i j = some (ys.set b v) := by
  obtain ⟨hi, hj⟩ := lt_length_of_swap h
  have hlen : (xs.set (Equiv.swap i j b) v).length = xs.length := List.length_set
  obtain ⟨after, hswap, -, hget⟩ := exists_swap (hlen.symm ▸ hi) (hlen.symm ▸ hj)
  rw [hswap]
  congr 1
  apply List.ext_getElem?
  intro k
  rw [hget, List.getElem?_set', List.getElem?_set', ← getElem?_of_swap h]
  by_cases hk : b = k
  · rw [if_pos hk, if_pos (congrArg _ hk)]
  · rw [if_neg hk, if_neg (fun heq => hk ((Equiv.swap i j).injective heq))]

/-! ## One place settled -/

theorem Swapped.cons (x : α) (h : Swapped n xs ys) : Swapped n (x :: xs) (x :: ys) := by
  induction h with
  | nil xs => exact .nil _
  | snoc h hij hswap ih =>
    apply ih.snoc (fun heq => hij (Nat.succ.inj heq))
    rw [swap_cons, hswap]
    rfl

theorem Swapped.first (hij : i ≠ j) (hswap : swap xs i j = some ys) (h : Swapped n ys zs) :
    Swapped (n + 1) xs zs := by
  induction h with
  | nil ys => exact (Swapped.nil xs).snoc hij hswap
  | snoc h hij' hswap' ih => exact (ih hswap).snoc hij' hswap'

theorem SwappedInOrder.swapped (h : SwappedInOrder n xs ys) : Swapped n xs ys := by
  induction h with
  | nil => exact .nil []
  | keep x h ih => exact ih.cons x
  | exchange ha h ih => exact (ih.cons _).first (Nat.succ_ne_zero _).symm (swap_cons_zero _ ha)

/-- The entry that ends up at `b` is followed back to where it comes from. Any other one in its
place goes the same way. -/
theorem Swapped.origin (h : Swapped n xs ys) (hb : ys[b]? = some z) :
    ∃ a, xs[a]? = some z ∧ ∀ v, Swapped n (xs.set a v) (ys.set b v) := by
  induction h generalizing b with
  | nil xs => exact ⟨b, hb, fun v => .nil _⟩
  | snoc h hij hswap ih =>
    rw [getElem?_of_swap hswap] at hb
    obtain ⟨a, ha, hset⟩ := ih hb
    exact ⟨a, ha, fun v => (hset v).snoc hij (swap_set hswap b v)⟩

/-- Only the first swap touches the first place, and there may be none that does. -/
def FirstSettled (n : ℕ) (x : α) (xs : List α) (y : α) (ys : List α) : Prop :=
  (y = x ∧ ∃ m ≤ n, Swapped m xs ys) ∨
    ∃ a m, xs[a]? = some y ∧ m < n ∧ Swapped m (xs.set a x) ys

/-- A swap with the first place at the end is brought to the beginning. -/
theorem FirstSettled.exchange (h : FirstSettled n x xs y ys) (hb : ys[b]? = some z) :
    FirstSettled (n + 1) x xs z (ys.set b y) := by
  rcases h with ⟨rfl, m, hm, h⟩ | ⟨a, m, ha, hm, h⟩
  · obtain ⟨a, ha, hset⟩ := h.origin hb
    exact .inr ⟨a, m, ha, Nat.lt_succ_of_le hm, hset y⟩
  · obtain ⟨c, hc, hset⟩ := h.origin hb
    have halen : a < xs.length := (List.getElem?_eq_some_iff.mp ha).1
    by_cases hac : a = c
    · -- the two swaps undo each other
      subst hac
      rw [List.getElem?_set_self halen] at hc
      refine .inl ⟨(Option.some.inj hc).symm, m, by omega, ?_⟩
      rw [← set_set_getElem? x ha]
      exact hset y
    · rw [List.getElem?_set_ne hac] at hc
      refine .inr ⟨c, m + 1, hc, by omega, ?_⟩
      have hswap : swap (xs.set c x) a c = some ((xs.set a x).set c y) := by
        unfold swap
        rw [List.getElem?_set_ne (Ne.symm hac), ha,
          List.getElem?_set_self (List.getElem?_eq_some_iff.mp hc).1]
        simp only [Option.bind_eq_bind, Option.bind_some]
        rw [List.set_comm x x (Ne.symm hac), List.set_set]
        rfl
      exact (hset y).first hac hswap

theorem Swapped.firstSettled (h : Swapped n (x :: xs) zs) :
    ∃ y ys, zs = y :: ys ∧ FirstSettled n x xs y ys := by
  generalize hstart : x :: xs = start at h
  induction h with
  | nil start => exact ⟨x, xs, hstart.symm, .inl ⟨rfl, 0, Nat.le_refl 0, .nil xs⟩⟩
  | @snoc n _ middle i j zs h hij hswap ih =>
    obtain ⟨y, ys, rfl, hsettled⟩ := ih hstart
    cases i with
    | zero =>
      cases j with
      | zero => exact absurd rfl hij
      | succ b =>
        obtain ⟨z, hb⟩ : ∃ z, ys[b]? = some z :=
          ⟨_, List.getElem?_eq_getElem (Nat.lt_of_succ_lt_succ (lt_length_of_swap hswap).2)⟩
        cases (swap_cons_zero y hb).symm.trans hswap
        exact ⟨z, _, rfl, hsettled.exchange hb⟩
    | succ i =>
      cases j with
      | zero =>
        obtain ⟨z, hb⟩ : ∃ z, ys[i]? = some z :=
          ⟨_, List.getElem?_eq_getElem (Nat.lt_of_succ_lt_succ (lt_length_of_swap hswap).1)⟩
        rw [swap_comm] at hswap
        cases (swap_cons_zero y hb).symm.trans hswap
        exact ⟨z, _, rfl, hsettled.exchange hb⟩
      | succ j =>
        rw [swap_cons] at hswap
        obtain ⟨ys', hys, rfl⟩ := Option.map_eq_some_iff.mp hswap
        have hij' : i ≠ j := fun heq => hij (congrArg _ heq)
        refine ⟨y, ys', rfl, ?_⟩
        rcases hsettled with ⟨heq, m, hm, h⟩ | ⟨a, m, ha, hm, h⟩
        · exact .inl ⟨heq, m + 1, Nat.succ_le_succ hm, h.snoc hij' hys⟩
        · exact .inr ⟨a, m + 1, ha, Nat.succ_lt_succ hm, h.snoc hij' hys⟩

theorem Swapped.perm (h : Swapped n xs ys) : ys.Perm xs := by
  induction h with
  | nil xs => exact .refl xs
  | snoc h hij hswap ih =>
    obtain ⟨hi, hj⟩ := lt_length_of_swap hswap
    obtain ⟨after, hafter, hperm, -⟩ := exists_swap hi hj
    cases hswap.symm.trans hafter
    exact hperm.trans ih

/-- No sequence of swaps is shorter than all those that settle one place after another. -/
theorem Swapped.inOrder (h : Swapped n xs ys) : ∃ m ≤ n, SwappedInOrder m xs ys := by
  induction hlen : xs.length generalizing n xs ys with
  | zero =>
    obtain rfl := List.length_eq_zero_iff.mp hlen
    obtain rfl := h.perm.eq_nil
    exact ⟨0, Nat.zero_le n, .nil⟩
  | succ k ih =>
    obtain ⟨x, xs, rfl⟩ := List.exists_cons_of_length_eq_add_one hlen
    have hxs : xs.length = k := Nat.succ.inj hlen
    obtain ⟨y, ys, rfl, ⟨rfl, m, hm, hrest⟩ | ⟨a, m, ha, hm, hrest⟩⟩ := h.firstSettled
    · obtain ⟨k, hk, hrest⟩ := ih hrest hxs
      exact ⟨k, hk.trans hm, hrest.keep y⟩
    · obtain ⟨k, hk, hrest⟩ := ih hrest (List.length_set.trans hxs)
      exact ⟨k + 1, Nat.succ_le_of_lt (hk.trans_lt hm), hrest.exchange ha⟩

theorem isLeast_swapped (h : IsLeast {m | SwappedInOrder m xs ys} n) :
    IsLeast {m | Swapped m xs ys} n := by
  refine ⟨h.1.swapped, fun m hm => ?_⟩
  obtain ⟨k, hk, hordered⟩ := Swapped.inOrder hm
  exact (h.2 hordered).trans hk

theorem exists_swappedInOrder (h : xs.Perm ys) : ∃ n, SwappedInOrder n xs ys := by
  induction ys generalizing xs with
  | nil =>
    obtain rfl := h.eq_nil
    exact ⟨0, .nil⟩
  | cons y ys ih =>
    cases xs with
    | nil => exact absurd h.symm.eq_nil (List.cons_ne_nil y ys)
    | cons x xs =>
      rcases List.mem_cons.mp (h.symm.subset List.mem_cons_self) with rfl | hmem
      · obtain ⟨n, hn⟩ := ih h.cons_inv
        exact ⟨n, hn.keep y⟩
      · obtain ⟨a, ha⟩ := List.mem_iff_getElem?.mp hmem
        have hswap := (Swapped.nil (x :: xs)).snoc (Nat.succ_ne_zero a).symm (swap_cons_zero x ha)
        obtain ⟨n, hn⟩ := ih (hswap.perm.trans h).cons_inv
        exact ⟨n + 1, hn.exchange ha⟩

end InterviewQuestions.Library

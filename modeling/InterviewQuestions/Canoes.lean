import InterviewQuestions.Library.CountingLoop
import InterviewQuestions.Library.Pairing
import InterviewQuestions.Library.Rearrangement
import Mathlib.Algebra.Order.Group.Nat
import Mathlib.Order.Bounds.Basic

/-! The two versions of `recursion_dp/canoes`. There is no result where an index is out of range
and where the recursion is deeper than `depth`. -/
namespace InterviewQuestions.Canoes

open Library

def MAX_CANOE_WEIGHT : UInt32 := 150

def UINT_MAX : UInt32 := 4294967295

/-! ## `solution_iterative.cpp` -/

namespace Iterative

/-- The loop, and the number returned after it. The first argument is `high`. -/
def meet (kids : List UInt32) : ℕ → ℕ → UInt32 → Option UInt32
  | 0, low, res => some (res + if low = 0 then 1 else 0)
  | high + 1, low, res =>
      if low < high + 1 then do
        let light ← kids[low]?
        let heavy ← kids[high + 1]?
        if light + heavy ≤ MAX_CANOE_WEIGHT then meet kids high (low + 1) (res + 1)
        else meet kids high low (res + 1)
      else some (res + if low = high + 1 then 1 else 0)

def minCanoes (kids : List UInt32) : Option UInt32 :=
  if kids.length = 0 then some UINT_MAX
  else do
    let kids := kids.mergeSort (· ≤ ·)
    let heaviest ← kids[kids.length - 1]?
    if heaviest > MAX_CANOE_WEIGHT then return UINT_MAX
    else meet kids (kids.length - 1) 0 0

end Iterative

/-! ## `solution.c` -/

namespace Recursive

def min (a b : UInt32) : UInt32 := if a < b then a else b

/-- The result, and the array after the call. -/
def canoesAux (N : ℕ) : ℕ → List UInt32 → ℕ → Option (UInt32 × List UInt32)
  | 0, _, _ => none
  | depth + 1, kids, kidI =>
      if kidI ≥ N then some (0, kids)
      else do
        let kid ← kids[kidI]?
        if kid > MAX_CANOE_WEIGHT then return (UINT_MAX, kids)
        else do
          let (res, kids) ← (List.range' (kidI + 1) (N - (kidI + 1))).foldlM
            (fun (res, kids) i => do
              let kid ← kids[kidI]?
              let other ← kids[i]?
              if kid + other > MAX_CANOE_WEIGHT then return (res, kids)
              else do
                let kids ← swap kids (kidI + 1) i
                let (canoesI, kids) ← canoesAux N depth kids (kidI + 2)
                let res := if canoesI ≠ UINT_MAX then min res (canoesI + 1) else res
                let kids ← swap kids (kidI + 1) i
                return (res, kids)) (UINT_MAX, kids)
          let (canoesAlone, kids) ← canoesAux N depth kids (kidI + 1)
          if canoesAlone = UINT_MAX then return (UINT_MAX, kids)
          else return (min res (canoesAlone + 1), kids)

def canoes (depth : ℕ) (kids : List UInt32) : Option UInt32 :=
  (canoesAux kids.length depth kids 0).map Prod.fst

end Recursive

/-! Both versions return the least number of canoes, as long as an `unsigned` holds it. -/

open Pairing

/-- What the kids weigh. -/
def weights (kids : List UInt32) : Multiset ℕ := (kids.map UInt32.toNat : List ℕ)

/-- The largest `unsigned` if some kid is too heavy, otherwise the least number of canoes. -/
structure Answer (kids : List UInt32) (r : UInt32) : Prop where
  impossible : (∃ kid ∈ kids, kid > MAX_CANOE_WEIGHT) → r = UINT_MAX
  fewest : (∀ kid ∈ kids, kid ≤ MAX_CANOE_WEIGHT) →
    IsLeast {n | ∃ canoes, Boxed 150 (weights kids) canoes ∧ canoes.card = n} r.toNat

/-- Both versions return the answer. -/
def SameAnswer (kids : List UInt32) : Prop :=
  ∃ r, Iterative.minCanoes kids = some r ∧
    (∀ depth > kids.length, Recursive.canoes depth kids = some r) ∧ Answer kids r

variable {kids rest others front back : List UInt32} {kid other res r : UInt32} {m n j : ℕ}

theorem weights_cons (kid : UInt32) (kids : List UInt32) :
    weights (kid :: kids) = kid.toNat ::ₘ weights kids := rfl

theorem weights_perm (h : kids.Perm others) : weights kids = weights others :=
  Multiset.coe_eq_coe.mpr (h.map _)

theorem mem_weights {w : ℕ} : w ∈ weights kids ↔ ∃ kid ∈ kids, kid.toNat = w := by
  unfold weights
  rw [Multiset.mem_coe, List.mem_map]

theorem le_max_iff : kid ≤ MAX_CANOE_WEIGHT ↔ kid.toNat ≤ 150 := UInt32.le_iff_toNat_le

theorem gt_max_iff : kid > MAX_CANOE_WEIGHT ↔ 150 < kid.toNat := UInt32.lt_iff_toNat_lt

/-- Below the largest `unsigned` it tells how many canoes are enough. -/
def Counts (items : Multiset ℕ) (r : UInt32) : Prop :=
  ∀ n < 2 ^ 32 - 1, Enough 150 items n ↔ r.toNat ≤ n

/-! ## The recursion -/

namespace Recursive

theorem min_le : (min res r).toNat ≤ n ↔ res.toNat ≤ n ∨ r.toNat ≤ n := by
  unfold min
  split
  next hlt =>
    rw [UInt32.lt_iff_toNat_lt] at hlt
    omega
  next hge =>
    rw [UInt32.lt_iff_toNat_lt] at hge
    omega

/-- One canoe more than `r`, without going beyond the largest `unsigned`. -/
theorem min_succ_le (hr : r ≠ UINT_MAX) :
    (min res (r + 1)).toNat ≤ n ↔ res.toNat ≤ n ∨ ∃ m, n = m + 1 ∧ r.toNat ≤ m := by
  have hne : r.toNat ≠ 2 ^ 32 - 1 := fun heq => hr (UInt32.toNat.inj heq)
  have hlt := r.toNat_lt
  rw [min_le, toNat_succ r (by omega)]
  refine or_congr_right ⟨fun hle => ⟨n - 1, by omega, by omega⟩, ?_⟩
  rintro ⟨m, rfl, hle⟩
  omega

/-- The first kid can go with the one at `j`, and the others in `n` canoes. -/
def Paired (kid : UInt32) (rest : List UInt32) (n j : ℕ) : Prop :=
  ∃ other others, rest[j]? = some other ∧ rest.Perm (other :: others) ∧
    kid.toNat + other.toNat ≤ 150 ∧ Enough 150 (weights others) n

theorem enough_cons_iff (hkid : kid.toNat ≤ 150) :
    Enough 150 (weights (kid :: rest)) (n + 1) ↔
      Enough 150 (weights rest) n ∨ ∃ j, Paired kid rest n j := by
  rw [weights_cons, enough_cons]
  refine or_congr ⟨And.right, fun h => ⟨hkid, h⟩⟩ ?_
  constructor
  · rintro ⟨w, others, hrest, hsum, henough⟩
    obtain ⟨other, hmem, rfl⟩ := mem_weights.mp (hrest ▸ Multiset.mem_cons_self w others)
    obtain ⟨j, hj⟩ := List.mem_iff_getElem?.mp hmem
    obtain ⟨front, back, rfl, -⟩ := exists_append_cons hj
    rw [weights_perm List.perm_middle, weights_cons, Multiset.cons_inj_right] at hrest
    exact ⟨j, other, front ++ back, hj, List.perm_middle, hsum, hrest ▸ henough⟩
  · rintro ⟨j, other, others, -, hperm, hsum, henough⟩
    exact ⟨other.toNat, weights others, by rw [weights_perm hperm, weights_cons], hsum, henough⟩

/-- What is known about the kid at `j` from the call without the two. -/
theorem paired_iff (hj : rest[j]? = some other) (hperm : (other :: others).Perm rest)
    (hsum : kid.toNat + other.toNat ≤ 150) (hr : Counts (weights others) r) (hn : n < 2 ^ 32 - 1) :
    Paired kid rest n j ↔ r.toNat ≤ n := by
  rw [← hr n hn]
  constructor
  · rintro ⟨other', others', hj', hperm', -, henough⟩
    cases hj.symm.trans hj'
    rwa [weights_perm ((List.perm_cons other).mp (hperm.trans hperm'))]
  · exact fun henough => ⟨other, others, hj, hperm.symm, hsum, henough⟩

/-- `res` says in how many canoes the kids can go if the first one goes with one of those before
`j`. Kids that are too heavy may make a sum wrap around. -/
def Tried (kid : UInt32) (rest : List UInt32) (j : ℕ) (res : UInt32) : Prop :=
  (∀ other ∈ rest, other.toNat ≤ 150) → ∀ n < 2 ^ 32 - 1,
    res.toNat ≤ n ↔ ∃ m, n = m + 1 ∧ ∃ i < j, Paired kid rest m i

theorem tried_zero (kid : UInt32) (rest : List UInt32) : Tried kid rest 0 UINT_MAX := by
  intro _ n hn
  constructor
  · intro hle
    exact absurd hle hn.not_ge
  · rintro ⟨m, -, i, hi, -⟩
    exact absurd hi (Nat.not_lt_zero i)

theorem Tried.skip (h : Tried kid rest j res)
    (hnot : (∀ other ∈ rest, other.toNat ≤ 150) → ∀ n < 2 ^ 32 - 1, ¬ Paired kid rest n j) :
    Tried kid rest (j + 1) res := by
  intro hlight n hn
  rw [h hlight n hn]
  constructor
  · rintro ⟨m, hm, i, hi, hpaired⟩
    exact ⟨m, hm, i, Nat.lt_succ_of_lt hi, hpaired⟩
  · rintro ⟨m, rfl, i, hi, hpaired⟩
    rcases Nat.lt_succ_iff_lt_or_eq.mp hi with hlt | rfl
    · exact ⟨m, rfl, i, hlt, hpaired⟩
    · exact absurd hpaired (hnot hlight m (by omega))

theorem Tried.take (h : Tried kid rest j res) (hr : r ≠ UINT_MAX)
    (hpaired : (∀ other ∈ rest, other.toNat ≤ 150) → ∀ n < 2 ^ 32 - 1,
      (Paired kid rest n j ↔ r.toNat ≤ n)) : Tried kid rest (j + 1) (min res (r + 1)) := by
  intro hlight n hn
  rw [min_succ_le hr, h hlight n hn]
  constructor
  · rintro (⟨m, hm, i, hi, hpair⟩ | ⟨m, rfl, hle⟩)
    · exact ⟨m, hm, i, Nat.lt_succ_of_lt hi, hpair⟩
    · exact ⟨m, rfl, j, Nat.lt_succ_self j, (hpaired hlight m (by omega)).mpr hle⟩
  · rintro ⟨m, rfl, i, hi, hpair⟩
    rcases Nat.lt_succ_iff_lt_or_eq.mp hi with hlt | rfl
    · exact .inl ⟨m, rfl, i, hlt, hpair⟩
    · exact .inr ⟨m, rfl, (hpaired hlight m (by omega)).mp hpair⟩

theorem counts_cons {alone : UInt32} (hkid : kid.toNat ≤ 150)
    (hcounts : Counts (weights rest) alone) (htried : Tried kid rest rest.length res) :
    Counts (weights (kid :: rest))
      (if alone = UINT_MAX then UINT_MAX else min res (alone + 1)) := by
  intro n hn
  by_cases hmax : alone = UINT_MAX
  · rw [if_pos hmax]
    refine iff_of_false (fun henough => ?_) hn.not_ge
    have hle := (hcounts n hn).mp henough.of_cons
    rw [hmax] at hle
    exact hn.not_ge hle
  · have hlt : alone.toNat < 2 ^ 32 - 1 := by
      have hne : alone.toNat ≠ 2 ^ 32 - 1 := fun heq => hmax (UInt32.toNat.inj heq)
      have hlt := alone.toNat_lt
      omega
    have hlight (other : UInt32) (hmem : other ∈ rest) : other.toNat ≤ 150 :=
      ((hcounts _ hlt).mpr le_rfl).le_capacity (mem_weights.mpr ⟨other, hmem, rfl⟩)
    rw [if_neg hmax, min_succ_le hmax, htried hlight n hn]
    cases n with
    | zero =>
      refine iff_of_false (fun henough => ?_) ?_
      · rw [weights_cons] at henough
        obtain ⟨m, hm, -⟩ := henough.split
        cases hm
      · rintro (⟨m, hm, -⟩ | ⟨m, hm, -⟩) <;> cases hm
    | succ n =>
      rw [enough_cons_iff hkid, hcounts n (by omega)]
      constructor
      · rintro (hle | ⟨j, hpaired⟩)
        · exact .inr ⟨n, rfl, hle⟩
        · obtain ⟨other, others, hj, -⟩ := id hpaired
          exact .inl ⟨n, rfl, j, (List.getElem?_eq_some_iff.mp hj).1, hpaired⟩
      · rintro (⟨m, hm, j, -, hpaired⟩ | ⟨m, hm, hle⟩)
        · cases hm
          exact .inr ⟨j, hpaired⟩
        · cases hm
          exact .inl hle

/-- The iteration for the kid at `j`; the call without the two leaves the array as it was. -/
theorem tried_step {N depth : ℕ} (hkid : kid.toNat ≤ 150) (hj : rest[j]? = some other)
    (hcall : ∀ others, (other :: others).Perm rest → ∃ s, canoesAux N depth
      (front ++ kid :: other :: others) (front.length + 2) = some s ∧
        s.2 = front ++ kid :: other :: others ∧ Counts (weights others) s.1)
    (htried : Tried kid rest j res) :
    ∃ s, (if kid + other > MAX_CANOE_WEIGHT then some (res, front ++ kid :: rest)
        else
          (swap (front ++ kid :: rest) (front.length + 1) (front.length + 1 + j)).bind fun kids =>
            (canoesAux N depth kids (front.length + 2)).bind fun s =>
              (swap s.2 (front.length + 1) (front.length + 1 + j)).bind fun kids =>
                some (if s.1 ≠ UINT_MAX then min res (s.1 + 1) else res, kids)) = some s ∧
      s.2 = front ++ kid :: rest ∧ Tried kid rest (j + 1) s.1 := by
  have hsum : (kid + other).toNat = (kid.toNat + other.toNat) % 2 ^ 32 :=
    UInt32.toNat_add kid other
  by_cases hweight : kid + other > MAX_CANOE_WEIGHT
  · refine ⟨_, if_pos hweight, rfl, htried.skip fun _ n _ => ?_⟩
    rintro ⟨other', others, hj', -, hle, -⟩
    cases hj.symm.trans hj'
    have hgt := gt_max_iff.mp hweight
    omega
  · obtain ⟨others, hthere, hback, hperm⟩ := swap_append_front (front ++ [kid]) hj
    simp only [List.append_assoc, List.singleton_append, List.length_append,
      List.length_singleton] at hthere hback
    obtain ⟨⟨r, kids⟩, hr, rfl, hcounts⟩ := hcall others hperm
    have hpaired (hlight : ∀ other ∈ rest, other.toNat ≤ 150) (n : ℕ) (hn : n < 2 ^ 32 - 1) :
        Paired kid rest n j ↔ r.toNat ≤ n := by
      have hle := mt gt_max_iff.mpr hweight
      have hother := hlight other (List.mem_of_getElem? hj)
      refine paired_iff hj hperm ?_ hcounts hn
      omega
    rw [if_neg hweight, hthere]
    simp only [Option.bind_some, hr, hback]
    refine ⟨_, rfl, rfl, ?_⟩
    by_cases hmax : r = UINT_MAX
    · rw [if_neg (not_not.mpr hmax)]
      refine htried.skip fun hlight n hn hpair => ?_
      have hle := (hpaired hlight n hn).mp hpair
      rw [hmax] at hle
      exact hn.not_ge hle
    · rw [if_pos hmax]
      exact htried.take hmax hpaired

theorem counts_heavy (hkid : 150 < kid.toNat) : Counts (weights (kid :: rest)) UINT_MAX := by
  intro n hn
  refine iff_of_false (fun henough => ?_) hn.not_ge
  have hle := henough.le_capacity (mem_weights.mpr ⟨kid, List.mem_cons_self, rfl⟩)
  omega

/-- The array is left as it was. -/
theorem canoesAux_spec {N depth : ℕ} (hN : kids.length = N) {kidI : ℕ} (hdepth : N < depth + kidI)
    (hpos : 0 < depth) :
    ∃ s, canoesAux N depth kids kidI = some s ∧ s.2 = kids ∧
      Counts (weights (kids.drop kidI)) s.1 := by
  induction depth generalizing kids kidI with
  | zero => exact absurd hpos (Nat.lt_irrefl 0)
  | succ depth ih =>
    rw [canoesAux]
    by_cases hend : kidI ≥ N
    · rw [if_pos hend]
      refine ⟨(0, kids), rfl, rfl, fun n _ => ?_⟩
      rw [List.drop_of_length_le (by omega)]
      exact iff_of_true (enough_zero 150 n) (Nat.zero_le n)
    · obtain ⟨kid, hkid⟩ : ∃ kid, kids[kidI]? = some kid :=
        ⟨kids[kidI], List.getElem?_eq_getElem (by omega)⟩
      obtain ⟨front, rest, rfl, rfl⟩ := exists_append_cons hkid
      have hdrop : (front ++ kid :: rest).drop front.length = kid :: rest := List.drop_left
      have hcount : N - (front.length + 1) = rest.length := by
        rw [List.length_append, List.length_cons] at hN
        omega
      rw [if_neg hend, hdrop, hcount]
      simp only [hkid, Option.bind_eq_bind, Option.bind_some]
      by_cases hheavy : kid > MAX_CANOE_WEIGHT
      · rw [if_pos hheavy]
        exact ⟨(UINT_MAX, front ++ kid :: rest), rfl, rfl, counts_heavy (gt_max_iff.mp hheavy)⟩
      · have hlight := mt gt_max_iff.mpr hheavy
        rw [if_neg hheavy]
        apply bind_spec (fun s : UInt32 × List UInt32 => s.2 = front ++ kid :: rest ∧
          Tried kid rest rest.length s.1)
        · refine foldlM_entries_spec (Tried kid rest) (fun j other res hj htried => ?_)
            (tried_zero kid rest)
          have hother : (front ++ kid :: rest)[front.length + 1 + j]? = some other := by
            rw [List.getElem?_append_right (by omega), Nat.add_assoc, Nat.add_sub_cancel_left,
              Nat.add_comm, List.getElem?_cons_succ, hj]
          simp only [hkid, hother, Option.bind_some]
          refine tried_step (not_lt.mp hlight) hj (fun others hperm => ?_) htried
          have hdrop : (front ++ kid :: other :: others).drop (front.length + 2) = others := by
            simp
          have hlen : (front ++ kid :: other :: others).length = N := by
            rw [← hN, List.length_append, List.length_append, List.length_cons, hperm.length_eq,
              List.length_cons]
          have hcall := @ih (front ++ kid :: other :: others) hlen (front.length + 2) (by omega)
            (by omega)
          rwa [hdrop] at hcall
        · rintro ⟨res, kids⟩ ⟨rfl, htried⟩
          obtain ⟨⟨alone, kids⟩, halone, rfl, hcounts⟩ :=
            @ih (front ++ kid :: rest) hN (front.length + 1) (by omega) (by omega)
          have hdrop : (front ++ kid :: rest).drop (front.length + 1) = rest := by simp
          rw [hdrop] at hcounts
          have hresult := counts_cons (not_lt.mp hlight) hcounts htried
          rw [halone, Option.bind_some]
          by_cases hmax : alone = UINT_MAX
          · rw [if_pos hmax] at hresult ⊢
            exact ⟨_, rfl, rfl, hresult⟩
          · rw [if_neg hmax] at hresult ⊢
            exact ⟨_, rfl, rfl, hresult⟩

end Recursive

/-! ## The iteration -/

/-- The fewest canoes for these items. -/
def Fewest (items : Multiset ℕ) (m : ℕ) : Prop := ∀ n, Enough 150 items n ↔ m ≤ n

theorem fewest_zero : Fewest 0 0 :=
  fun n => iff_of_true (enough_zero 150 n) (Nat.zero_le n)

theorem Fewest.succ {w : ℕ} {items items' : Multiset ℕ} (h : Fewest items m)
    (hsucc : ∀ n, Enough 150 (w ::ₘ items') (n + 1) ↔ Enough 150 items n) :
    Fewest (w ::ₘ items') (m + 1) := by
  intro n
  cases n with
  | zero =>
    refine iff_of_false (fun henough => ?_) (Nat.not_succ_le_zero m)
    obtain ⟨n, hn, -⟩ := henough.split
    cases hn
  | succ n =>
    rw [hsucc, h n]
    exact Nat.succ_le_succ_iff.symm

namespace Iterative

theorem fewest_short (hlight : ∀ kid ∈ kids, kid.toNat ≤ 150) (hlen : kids.length ≤ 1) :
    Fewest (weights kids) kids.length := by
  cases kids with
  | nil => exact fewest_zero
  | cons kid rest =>
    rw [List.length_cons] at hlen
    obtain rfl : rest = [] := List.length_eq_zero_iff.mp (by omega)
    refine fewest_zero.succ fun n => enough_alone (hlight kid List.mem_cons_self) fun w hw => ?_
    exact absurd hw (Multiset.notMem_zero w)

theorem last_term {low high len : ℕ} (hlen : len + low = high + 1) (hshort : len ≤ 1) :
    (if low = high then 1 else 0 : UInt32) = UInt32.ofNat len := by
  by_cases hlow : low = high
  · obtain rfl : len = 1 := by omega
    exact if_pos hlow
  · obtain rfl : len = 0 := by omega
    exact if_neg hlow

theorem add_succ (res : UInt32) (m : ℕ) :
    res + 1 + UInt32.ofNat m = res + UInt32.ofNat (m + 1) := by
  rw [Nat.add_comm, UInt32.ofNat_add, ← UInt32.add_assoc]
  rfl

theorem sum_le_max_iff (hkid : kid.toNat ≤ 150) (hother : other.toNat ≤ 150) :
    kid + other ≤ MAX_CANOE_WEIGHT ↔ other.toNat + kid.toNat ≤ 150 := by
  have hsum : (kid + other).toNat = (kid.toNat + other.toNat) % 2 ^ 32 :=
    UInt32.toNat_add kid other
  rw [le_max_iff, hsum, Nat.mod_eq_of_lt (by omega), Nat.add_comm]

section Ends

variable {light heavy : UInt32} {middle : List UInt32}

theorem weights_ends (light heavy : UInt32) (middle : List UInt32) :
    weights (light :: (middle ++ [heavy])) = heavy.toNat ::ₘ light.toNat ::ₘ weights middle :=
  weights_perm (List.perm_append_singleton heavy (light :: middle))

/-- The lightest and the heaviest kid go together. -/
theorem fewest_together (h : Fewest (weights middle) m) (hsum : heavy.toNat + light.toNat ≤ 150)
    (hgreatest : ∀ kid ∈ middle, kid ≤ heavy) :
    Fewest (weights (light :: (middle ++ [heavy]))) (m + 1) := by
  rw [weights_ends]
  apply h.succ
  intro n
  apply enough_together hsum
  intro w hw
  obtain ⟨kid, hkid, rfl⟩ := mem_weights.mp hw
  exact UInt32.le_iff_toNat_le.mp (hgreatest kid hkid)

/-- The heaviest kid goes alone when even the lightest one is too heavy for it. -/
theorem fewest_alone (h : Fewest (weights (light :: middle)) m) (hheavy : heavy.toNat ≤ 150)
    (hsum : ¬ heavy.toNat + light.toNat ≤ 150) (hleast : ∀ kid ∈ middle, light ≤ kid) :
    Fewest (weights (light :: (middle ++ [heavy]))) (m + 1) := by
  rw [weights_cons] at h
  rw [weights_ends]
  apply h.succ
  intro n
  apply enough_alone hheavy
  intro w hw
  rw [← weights_cons] at hw
  obtain ⟨kid, hkid, rfl⟩ := mem_weights.mp hw
  have hle : light.toNat ≤ kid.toNat := by
    rcases List.mem_cons.mp hkid with rfl | hmem
    · exact Nat.le_refl _
    · exact UInt32.le_iff_toNat_le.mp (hleast kid hmem)
  omega

end Ends

/-- The kids between `low` and `high` are still to be taken. -/
theorem meet_spec {high low : ℕ} (hkids : kids = front ++ (rest ++ back))
    (hlow : front.length = low) (hlen : rest.length + low = high + 1)
    (hsorted : rest.Pairwise (· ≤ ·)) (hlight : ∀ kid ∈ rest, kid.toNat ≤ 150) :
    ∃ m, meet kids high low res = some (res + UInt32.ofNat m) ∧ Fewest (weights rest) m := by
  induction high generalizing front rest back low res with
  | zero =>
    refine ⟨rest.length, ?_, fewest_short hlight (by omega)⟩
    rw [meet, last_term hlen (by omega)]
  | succ high ih =>
    rw [meet]
    by_cases hlt : low < high + 1
    · obtain ⟨light, rest, rfl⟩ := List.exists_cons_of_length_pos (show 0 < rest.length by omega)
      rw [List.length_cons] at hlen
      obtain ⟨middle, heavy, rfl⟩ : ∃ middle heavy, rest = middle ++ [heavy] :=
        ⟨_, _, (List.dropLast_append_getLast (List.ne_nil_of_length_pos (by omega))).symm⟩
      rw [List.length_append, List.length_singleton] at hlen
      obtain ⟨hleast, hrest⟩ := List.pairwise_cons.mp hsorted
      obtain ⟨hmiddle, -, hgreatest⟩ := List.pairwise_append.mp hrest
      have hlightest : light.toNat ≤ 150 := hlight light List.mem_cons_self
      have hheaviest : heavy.toNat ≤ 150 := hlight heavy (by simp)
      have hlow' : kids[low]? = some light := by
        rw [hkids, ← hlow]
        exact getElem?_append_cons front light _
      have hhigh : kids[high + 1]? = some heavy := by
        have hend := getElem?_append_cons (front ++ light :: middle) heavy back
        have hlast : (front ++ light :: middle).length = high + 1 := by
          rw [List.length_append, List.length_cons]
          omega
        rw [hkids, ← hlast, ← hend]
        simp
      have hfront : (light :: middle).Sublist (light :: (middle ++ [heavy])) :=
        List.sublist_append_left (light :: middle) [heavy]
      rw [if_pos hlt, hlow', hhigh]
      simp only [Option.bind_eq_bind, Option.bind_some]
      by_cases hboth : light + heavy ≤ MAX_CANOE_WEIGHT
      · obtain ⟨m, hm, hfewest⟩ := @ih middle (front ++ [light]) (heavy :: back) (res + 1) (low + 1)
          (by rw [hkids]; simp) (by rw [List.length_append, hlow]; rfl) (by omega) hmiddle
          (fun kid hkid => hlight kid (by simp [hkid]))
        refine ⟨m + 1, ?_, ?_⟩
        · rw [if_pos hboth, hm, add_succ]
        · apply fewest_together hfewest ((sum_le_max_iff hlightest hheaviest).mp hboth)
          exact fun kid hkid => hgreatest kid hkid heavy List.mem_cons_self
      · obtain ⟨m, hm, hfewest⟩ := @ih (light :: middle) front (heavy :: back) (res + 1) low
          (by rw [hkids]; simp) hlow (by rw [List.length_cons]; omega) (hsorted.sublist hfront)
          (fun kid hkid => hlight kid (hfront.subset hkid))
        rw [sum_le_max_iff hlightest hheaviest] at hboth
        refine ⟨m + 1, ?_, ?_⟩
        · rw [if_neg (mt (sum_le_max_iff hlightest hheaviest).mp hboth), hm, add_succ]
        · apply fewest_alone hfewest hheaviest hboth
          exact fun kid hkid => hleast kid (List.mem_append_left _ hkid)
    · refine ⟨rest.length, ?_, fewest_short hlight (by omega)⟩
      rw [if_neg hlt, last_term hlen (by omega)]

theorem minCanoes_spec (hkids : kids ≠ []) :
    ((∃ kid ∈ kids, kid > MAX_CANOE_WEIGHT) → minCanoes kids = some UINT_MAX) ∧
      ((∀ kid ∈ kids, kid ≤ MAX_CANOE_WEIGHT) →
        ∃ m, minCanoes kids = some (UInt32.ofNat m) ∧ Fewest (weights kids) m) := by
  have hlen : kids.length ≠ 0 := mt List.length_eq_zero_iff.mp hkids
  have hperm := List.mergeSort_perm kids fun a b => decide (a ≤ b)
  have hsorted : (kids.mergeSort fun a b => decide (a ≤ b)).Pairwise (· ≤ ·) := by
    refine (List.pairwise_mergeSort ?_ ?_ kids).imp (fun h => of_decide_eq_true h)
    · intro a b c hab hbc
      exact decide_eq_true (UInt32.le_trans (of_decide_eq_true hab) (of_decide_eq_true hbc))
    · intro a b
      rw [Bool.or_eq_true, decide_eq_true_iff, decide_eq_true_iff]
      exact UInt32.le_total a b
  unfold minCanoes
  rw [if_neg hlen]
  generalize (kids.mergeSort fun a b => decide (a ≤ b)) = sorted at hperm hsorted ⊢
  have hpos : 0 < sorted.length := by
    rw [hperm.length_eq]
    omega
  obtain ⟨front, heaviest, rfl⟩ : ∃ front heaviest, sorted = front ++ [heaviest] :=
    ⟨_, _, (List.dropLast_append_getLast (List.ne_nil_of_length_pos hpos)).symm⟩
  have hlast : (front ++ [heaviest])[(front ++ [heaviest]).length - 1]? = some heaviest := by
    rw [List.length_append, List.length_singleton, Nat.add_sub_cancel]
    exact getElem?_append_cons front heaviest []
  simp only [hlast, Option.bind_eq_bind, Option.bind_some]
  constructor
  · rintro ⟨kid, hkid, hgt⟩
    have hle : kid ≤ heaviest := by
      rcases List.mem_append.mp (hperm.symm.subset hkid) with hmem | hmem
      · exact (List.pairwise_append.mp hsorted).2.2 kid hmem heaviest List.mem_cons_self
      · rw [List.mem_singleton.mp hmem]
        exact UInt32.le_refl _
    exact if_pos (UInt32.lt_of_lt_of_le hgt hle)
  · intro hlight
    have hall (kid : UInt32) (hkid : kid ∈ front ++ [heaviest]) : kid.toNat ≤ 150 :=
      le_max_iff.mp (hlight kid (hperm.subset hkid))
    obtain ⟨m, hm, hfewest⟩ := @meet_spec (front ++ [heaviest]) (front ++ [heaviest]) [] [] 0
      ((front ++ [heaviest]).length - 1) 0 (by simp) rfl (by omega) hsorted hall
    rw [weights_perm hperm] at hfewest
    refine ⟨m, ?_, hfewest⟩
    rw [if_neg (mt gt_max_iff.mp (hall heaviest (by simp)).not_gt), hm, UInt32.zero_add]

end Iterative

/-! ## Both -/

theorem Fewest.isLeast {items : Multiset ℕ} (h : Fewest items m) :
    IsLeast {n | ∃ canoes, Boxed 150 items canoes ∧ canoes.card = n} m := by
  constructor
  · obtain ⟨canoes, hcanoes, hle⟩ := (h m).mpr (Nat.le_refl m)
    have hge := (h _).mp ⟨canoes, hcanoes, Nat.le_refl _⟩
    exact ⟨canoes, hcanoes, Nat.le_antisymm hle hge⟩
  · rintro n ⟨canoes, hcanoes, rfl⟩
    exact (h _).mp ⟨canoes, hcanoes, Nat.le_refl _⟩

theorem not_enough_of_heavy (hkid : kid ∈ kids) (hheavy : kid > MAX_CANOE_WEIGHT) (n : ℕ) :
    ¬ Enough 150 (weights kids) n := by
  intro henough
  have hle := henough.le_capacity (mem_weights.mpr ⟨kid, hkid, rfl⟩)
  have hgt := gt_max_iff.mp hheavy
  omega

theorem Counts.eq_max {items : Multiset ℕ} (h : Counts items r) (hnot : ∀ n, ¬ Enough 150 items n) :
    r = UINT_MAX := by
  apply UInt32.toNat.inj
  by_contra hne
  change r.toNat ≠ 2 ^ 32 - 1 at hne
  have hlt := r.toNat_lt
  exact hnot _ ((h r.toNat (by omega)).mpr (Nat.le_refl _))

theorem Counts.eq_ofNat {items : Multiset ℕ} (h : Counts items r) (hm : Fewest items m)
    (hle : m ≤ 2 ^ 32 - 1) : r = UInt32.ofNat m := by
  apply UInt32.toNat.inj
  rw [UInt32.toNat_ofNat_of_lt' (show m < 2 ^ 32 by omega)]
  have hlt := r.toNat_lt
  have hge : m ≤ r.toNat := by
    by_contra hsmall
    exact hsmall ((hm _).mp ((h r.toNat (by omega)).mpr (Nat.le_refl _)))
  by_cases hmax : m < 2 ^ 32 - 1
  · exact Nat.le_antisymm ((h m hmax).mp ((hm m).mpr (Nat.le_refl m))) hge
  · omega

theorem Recursive.canoes_spec {depth : ℕ} (hdepth : depth > kids.length) :
    ∃ r, canoes depth kids = some r ∧ Counts (weights kids) r := by
  obtain ⟨s, hs, -, hcounts⟩ := @canoesAux_spec kids _ depth rfl 0 hdepth (Nat.zero_lt_of_lt hdepth)
  refine ⟨s.1, ?_, hcounts⟩
  rw [canoes, hs]
  rfl

/-- An `unsigned` is at most the largest one. -/
theorem SameAnswer.enough (h : SameAnswer kids) (hlight : ∀ kid ∈ kids, kid ≤ MAX_CANOE_WEIGHT) :
    Enough 150 (weights kids) (2 ^ 32 - 1) := by
  obtain ⟨r, -, -, hanswer⟩ := h
  obtain ⟨⟨canoes, hcanoes, hcard⟩, -⟩ := hanswer.fewest hlight
  have hlt := r.toNat_lt
  exact ⟨canoes, hcanoes, by omega⟩

theorem canoes_iff (hkids : kids ≠ []) : SameAnswer kids ↔
    (∃ kid ∈ kids, kid > MAX_CANOE_WEIGHT) ∨ Enough 150 (weights kids) (2 ^ 32 - 1) := by
  obtain ⟨himpossible, hfewest⟩ := Iterative.minCanoes_spec hkids
  by_cases hheavy : ∃ kid ∈ kids, kid > MAX_CANOE_WEIGHT
  · refine iff_of_true ⟨UINT_MAX, himpossible hheavy, fun depth hdepth => ?_, fun _ => rfl, ?_⟩
      (.inl hheavy)
    · obtain ⟨r, hr, hcounts⟩ := Recursive.canoes_spec hdepth
      obtain ⟨kid, hkid, hgt⟩ := hheavy
      rw [hr, hcounts.eq_max (not_enough_of_heavy hkid hgt)]
    · intro hlight
      obtain ⟨kid, hkid, hgt⟩ := hheavy
      exact absurd (hlight kid hkid) (UInt32.not_le.mpr hgt)
  · have hlight : ∀ kid ∈ kids, kid ≤ MAX_CANOE_WEIGHT := by
      intro kid hkid
      exact UInt32.not_lt.mp fun hgt => hheavy ⟨kid, hkid, hgt⟩
    rw [or_iff_right hheavy]
    constructor
    · exact fun hsame => hsame.enough hlight
    · intro henough
      obtain ⟨m, hm, hfew⟩ := hfewest hlight
      have hle := (hfew _).mp henough
      refine ⟨UInt32.ofNat m, hm, fun depth hdepth => ?_, fun h => absurd h hheavy, fun _ => ?_⟩
      · obtain ⟨r, hr, hcounts⟩ := Recursive.canoes_spec hdepth
        rw [hr, hcounts.eq_ofNat hfew hle]
      · rw [UInt32.toNat_ofNat_of_lt' (show m < 2 ^ 32 by omega)]
        exact hfew.isLeast

/-- A canoe for each kid. -/
theorem enough_length (hlight : ∀ kid ∈ kids, kid.toNat ≤ 150) :
    Enough 150 (weights kids) kids.length := by
  induction kids with
  | nil => exact enough_zero 150 0
  | cons kid kids ih =>
    exact (ih fun other hother => hlight other (List.mem_cons_of_mem _ hother)).alone
      (hlight kid List.mem_cons_self)

/-- Two kids that go together. -/
theorem canoes_iff_two : [60, 90] ≠ ([] : List UInt32) ∧
    Enough 150 (weights [60, 90]) (2 ^ 32 - 1) ∧ SameAnswer [60, 90] := by
  have henough : Enough 150 (weights [60, 90]) (2 ^ 32 - 1) :=
    (enough_length (by simp)).mono (by decide)
  have hkids : [60, 90] ≠ ([] : List UInt32) := by decide
  exact ⟨hkids, henough, (canoes_iff hkids).mpr (.inr henough)⟩

theorem fewest_replicate (n : ℕ) : Fewest (weights (List.replicate n 150)) n := by
  induction n with
  | zero => exact fewest_zero
  | succ n ih =>
    refine ih.succ fun k => enough_alone (Nat.le_refl 150) fun w hw => ?_
    obtain ⟨kid, hkid, rfl⟩ := mem_weights.mp hw
    rw [List.eq_of_mem_replicate hkid]
    decide

/-- As many kids as an `unsigned` has values, each of whom fills a canoe. -/
theorem not_sameAnswer_replicate : ¬ SameAnswer (List.replicate (2 ^ 32) 150) := by
  intro hsame
  have henough := hsame.enough fun kid hkid => by
    rw [List.eq_of_mem_replicate hkid]
    decide
  have hle := (fewest_replicate (2 ^ 32) _).mp henough
  omega

end InterviewQuestions.Canoes

import InterviewQuestions.Library.Sampling
import Mathlib.Algebra.BigOperators.Group.List.Basic
import Mathlib.Data.Int.Order.Basic

/-! `numeric/rand_shrink/solution.c`. The values that the calls of `rand()` return are a list, and
what is left of it is kept beside the result. Every value of an expression goes through `check`,
which has no result for the values that it does not allow. -/
namespace InterviewQuestions.RandShrink

open Library Draws

/-- `RAND_MAX%(max+1)+1` -/
def excess (check : ℤ → Option ℤ) (randMax max : ℤ) : Option ℤ := do
  let size ← check (max + 1)
  let rest ← check (randMax.tmod size)
  check (rest + 1)

def limit (check : ℤ → Option ℤ) (randMax max : ℤ) : Option ℤ := do
  check (randMax - (← excess check randMax max))

/-- The loop. There is no result where it does not end with the values that there are. -/
def retry (lim : ℤ) : List ℕ → Option (ℤ × List ℕ)
  | [] => none
  | ret :: rands => if ret > lim then retry lim rands else some (ret, rands)

def randZero (check : ℤ → Option ℤ) (randMax max : ℤ) (rands : List ℕ) :
    Option (ℤ × List ℕ) :=
  if max > randMax then some (-1, rands)
  else if max = randMax then
    match rands with
    | [] => none
    | ret :: rands => some (ret, rands)
  else do
    let lim ← limit check randMax max
    let (ret, rands) ← retry lim rands
    let size ← check (max + 1)
    let res ← check (ret.tmod size)
    return (res, rands)

def rangeRand (check : ℤ → Option ℤ) (randMax low high : ℤ) (rands : List ℕ) :
    Option (ℤ × List ℕ) := do
  let width ← check (high - low)
  if (← check (width + 1)) > randMax then return (-1, rands)
  else
    let (ret, rands) ← randZero check randMax width rands
    let res ← check (ret + low)
    return (res, rands)

variable {check : ℤ → Option ℤ} {randMax max d v m b k : ℕ} {ds : List ℕ}

/-! ## The values that are accepted -/

/-- How many values become one and the same. -/
def bucket (randMax max : ℕ) : ℕ := if max = randMax then 1 else randMax / (max + 1)

/-- The values below this number are accepted. -/
def accepted (randMax max : ℕ) : ℕ := (max + 1) * bucket randMax max

theorem bucket_pos (hmax : max ≤ randMax) : 0 < bucket randMax max := by
  unfold bucket
  split
  · exact Nat.one_pos
  · exact Nat.div_pos (by omega) (Nat.succ_pos max)

theorem accepted_pos (hmax : max ≤ randMax) : 0 < accepted randMax max :=
  Nat.mul_pos (Nat.succ_pos max) (bucket_pos hmax)

theorem accepted_le (randMax max : ℕ) : accepted randMax max ≤ randMax + 1 := by
  unfold accepted bucket
  split
  · next heq => rw [heq, Nat.mul_one]
  · exact (Nat.mul_div_le randMax (max + 1)).trans (Nat.le_succ randMax)

theorem limit_eq (hcheck : ∀ z, 0 ≤ z → z ≤ (randMax : ℤ) → check z = some z)
    (hmax : max < randMax) :
    limit check randMax max = some ((accepted randMax max : ℤ) - 1) := by
  have hsplit := Nat.div_add_mod randMax (max + 1)
  have hlt := Nat.mod_lt randMax (Nat.succ_pos max)
  have hpos := accepted_pos (Nat.le_of_lt hmax)
  have haccepted : accepted randMax max = (max + 1) * (randMax / (max + 1)) := by
    rw [accepted, bucket, if_neg (Nat.ne_of_lt hmax)]
  have hrest : (randMax : ℤ).tmod ((max : ℤ) + 1) = (randMax % (max + 1) : ℕ) :=
    (Int.ofNat_tmod randMax (max + 1)).symm
  rw [← haccepted] at hsplit
  unfold limit excess
  simp only [Option.bind_eq_bind]
  rw [hcheck _ (by omega) (by omega), Option.bind_some, hrest, hcheck _ (by omega) (by omega),
    Option.bind_some, hcheck _ (by omega) (by omega), Option.bind_some,
    hcheck _ (by omega) (by omega)]
  congr 1
  omega

theorem randZero_self (check : ℤ → Option ℤ) (randMax : ℕ) (rands : List ℕ) :
    randZero check randMax randMax rands =
      match rands with
      | [] => none
      | ret :: rands => some ((ret : ℤ), rands) := by
  unfold randZero
  rw [if_neg (lt_irrefl _), if_pos rfl]

theorem randZero_of_lt (hcheck : ∀ z, 0 ≤ z → z ≤ (randMax : ℤ) → check z = some z)
    (hmax : max < randMax) (rands : List ℕ) :
    randZero check randMax max rands =
      (retry ((accepted randMax max : ℤ) - 1) rands).bind fun x =>
        (check (x.1.tmod ((max : ℤ) + 1))).bind fun res => some (res, x.2) := by
  unfold randZero
  rw [if_neg (by omega), if_neg (by omega), limit_eq hcheck hmax]
  simp only [Option.bind_eq_bind, Option.bind_some, hcheck ((max : ℤ) + 1) (by omega) (by omega)]
  rfl

theorem randZero_nil (hcheck : ∀ z, 0 ≤ z → z ≤ (randMax : ℤ) → check z = some z)
    (hmax : max ≤ randMax) : randZero check randMax max [] = none := by
  rcases Nat.eq_or_lt_of_le hmax with rfl | hlt
  · rw [randZero_self]
  · rw [randZero_of_lt hcheck hlt]
    rfl

/-- One value of `rand()` ends the loop or is passed over. -/
theorem randZero_cons (hcheck : ∀ z, 0 ≤ z → z ≤ (randMax : ℤ) → check z = some z)
    (hmax : max ≤ randMax) (hd : d ≤ randMax) (ds : List ℕ) :
    randZero check randMax max (d :: ds) =
      if d < accepted randMax max then some (((d % (max + 1) : ℕ) : ℤ), ds)
      else randZero check randMax max ds := by
  rcases Nat.eq_or_lt_of_le hmax with rfl | hlt
  · have haccepted : accepted max max = max + 1 := by
      rw [accepted, bucket, if_pos rfl, Nat.mul_one]
    rw [randZero_self, haccepted, if_pos (Nat.lt_succ_of_le hd),
      Nat.mod_eq_of_lt (Nat.lt_succ_of_le hd)]
  · rw [randZero_of_lt hcheck hlt, randZero_of_lt hcheck hlt, retry]
    by_cases hd' : d < accepted randMax max
    · have hmod : (d : ℤ).tmod ((max : ℤ) + 1) = (d % (max + 1) : ℕ) :=
        (Int.ofNat_tmod d (max + 1)).symm
      have hsmall : d % (max + 1) < max + 1 := Nat.mod_lt d (Nat.succ_pos max)
      rw [if_neg (by omega), if_pos hd', Option.bind_some, hmod, hcheck _ (by omega) (by omega)]
      rfl
    · rw [if_pos (by omega), if_neg hd']

theorem randZero_mem (hmax : max ≤ randMax) (hds : ∀ d ∈ ds, d ≤ randMax) {x : ℤ × List ℕ}
    (h : randZero some randMax max ds = some x) : ∃ v < max + 1, x.1 = (v : ℕ) := by
  have hsome (z : ℤ) (_ : 0 ≤ z) (_ : z ≤ (randMax : ℤ)) : some z = some z := rfl
  induction ds with
  | nil =>
    rw [randZero_nil hsome hmax] at h
    cases h
  | cons d ds ih =>
    obtain ⟨hd, hds⟩ := List.forall_mem_cons.mp hds
    rw [randZero_cons hsome hmax hd] at h
    split at h
    · cases h
      exact ⟨d % (max + 1), Nat.mod_lt d (Nat.succ_pos max), rfl⟩
    · exact ih hds h

/-! ## Uniformity -/

theorem countP_mod (hv : v < m) (b : ℕ) : (List.range (m * b)).countP (fun d => d % m = v) = b := by
  induction b with
  | zero => rfl
  | succ b ih =>
    have hone : (List.range m).countP ((fun d => d % m = v) ∘ (m * b + ·)) = 1 := by
      have hcount : (List.range m).countP ((fun d => d % m = v) ∘ (m * b + ·)) =
          (List.range m).count v := by
        refine List.countP_congr fun j hj => ?_
        simp [Nat.mod_eq_of_lt (List.mem_range.mp hj)]
      rw [hcount]
      exact List.count_eq_one_of_mem List.nodup_range (List.mem_range.mpr hv)
    rw [Nat.mul_succ, List.range_add, List.countP_append, ih, List.countP_map, hone]

/-- In how many cases the result is `v` after at most `k` calls of `rand()`. -/
def ways (randMax max k v : ℕ) : ℕ :=
  count (List.replicate k (randMax + 1)) fun ds =>
    (randZero some randMax max ds).map Prod.fst = some (v : ℤ)

theorem ways_zero (hmax : max ≤ randMax) (v : ℕ) : ways randMax max 0 v = 0 := by
  apply count_eq_zero
  intro ds hds
  obtain rfl := List.mem_singleton.mp hds
  rw [randZero_nil (fun z _ _ => rfl) hmax]
  exact Option.some_ne_none (v : ℤ) ∘ Eq.symm

/-- The first call decides, or it does not count. -/
theorem ways_succ (hmax : max ≤ randMax) (hv : v ≤ max) (k : ℕ) :
    ways randMax max (k + 1) v = bucket randMax max * (randMax + 1) ^ k +
      (randMax + 1 - accepted randMax max) * ways randMax max k v := by
  have hle := accepted_le randMax max
  have hsome (z : ℤ) (_ : 0 ≤ z) (_ : z ≤ (randMax : ℤ)) : some z = some z := rfl
  have hpassed (d : ℕ) (hd : accepted randMax max ≤ d) (hd' : d < randMax + 1) :
      (count (List.replicate k (randMax + 1)) fun ds =>
        (randZero some randMax max (d :: ds)).map Prod.fst = some (v : ℤ)) =
          ways randMax max k v := by
    apply count_congr
    intro ds _
    rw [randZero_cons hsome hmax (by omega), if_neg (Nat.not_lt.mpr hd)]
  have htaken (d : ℕ) (hd : d < accepted randMax max) (ds : List ℕ) :
      (randZero some randMax max (d :: ds)).map Prod.fst = some (v : ℤ) ↔ d % (max + 1) = v := by
    rw [randZero_cons hsome hmax (by omega), if_pos hd, Option.map_some, Option.some.injEq,
      Int.natCast_inj]
  rw [ways, List.replicate_succ, count_split hle hpassed, count_head _ htaken, accepted,
    countP_mod (Nat.lt_succ_of_le hv), List.prod_replicate]

theorem ways_eq (hmax : max ≤ randMax) (hv : v ≤ max) (k : ℕ) :
    ways randMax max k v = ways randMax max k 0 := by
  induction k with
  | zero => rw [ways_zero hmax, ways_zero hmax]
  | succ k ih => rw [ways_succ hmax hv, ways_succ hmax (Nat.zero_le max), ih]

/-! ## The intermediate values -/

/-- The range from 0 to `RAND_MAX+1`. -/
def within (randMax : ℕ) (z : ℤ) : Option ℤ := if 0 ≤ z ∧ z ≤ randMax + 1 then some z else none

theorem within_eq {z : ℤ} (hz : 0 ≤ z) (hz' : z ≤ randMax) : within randMax z = some z :=
  if_pos ⟨hz, hz'.trans (Int.le_add_one (le_refl _))⟩

/-- Nothing goes beyond a range to which all values from 0 to `RAND_MAX` belong. -/
theorem randZero_check (hcheck : ∀ z, 0 ≤ z → z ≤ (randMax : ℤ) → check z = some z)
    (hmax : max ≤ randMax) (hds : ∀ d ∈ ds, d ≤ randMax) :
    randZero check randMax max ds = randZero some randMax max ds := by
  have hsome (z : ℤ) (_ : 0 ≤ z) (_ : z ≤ (randMax : ℤ)) : some z = some z := rfl
  induction ds with
  | nil => rw [randZero_nil hcheck hmax, randZero_nil hsome hmax]
  | cons d ds ih =>
    obtain ⟨hd, hds⟩ := List.forall_mem_cons.mp hds
    rw [randZero_cons hcheck hmax hd, randZero_cons hsome hmax hd, ih hds]

/-- Some value of `rand()` ends the loop, every result is the result of equally many of them and of
equally many sequences of calls, and what is computed on the way stays between 0 and
`RAND_MAX+1`. -/
theorem randZero_uniform (hmax : max ≤ randMax) :
    (∃ d ≤ randMax, (randZero some randMax max [d]).isSome) ∧
    (∀ d ≤ randMax, ∀ x ∈ randZero some randMax max [d], 0 ≤ x.1 ∧ x.1 ≤ max) ∧
    (∃ n, 0 < n ∧ ∀ v ≤ max, (List.range (randMax + 1)).countP
      (fun d => (randZero some randMax max [d]).map Prod.fst = some (v : ℤ)) = n) ∧
    (∀ k, ∃ n, ∀ v ≤ max, (count (List.replicate k (randMax + 1)) fun rands =>
      (randZero some randMax max rands).map Prod.fst = some (v : ℤ)) = n) ∧
    ∀ rands, (∀ d ∈ rands, d ≤ randMax) →
      randZero (within randMax) randMax max rands = randZero some randMax max rands := by
  have hsome (z : ℤ) (_ : 0 ≤ z) (_ : z ≤ (randMax : ℤ)) : some z = some z := rfl
  refine ⟨⟨0, Nat.zero_le _, ?_⟩, ?_, ⟨bucket randMax max, bucket_pos hmax, ?_⟩, ?_, ?_⟩
  · rw [randZero_cons hsome hmax (Nat.zero_le _), if_pos (accepted_pos hmax)]
    rfl
  · intro d hd x hx
    rw [randZero_cons hsome hmax hd] at hx
    split at hx
    · cases hx
      have hlt : d % (max + 1) < max + 1 := Nat.mod_lt d (Nat.succ_pos max)
      dsimp only
      omega
    · rw [randZero_nil hsome hmax] at hx
      cases hx
  · intro v hv
    have hways : ways randMax max 1 v = bucket randMax max := by
      rw [ways_succ hmax hv, ways_zero hmax, pow_zero, Nat.mul_one, Nat.mul_zero, Nat.add_zero]
    rw [← hways, ways, List.replicate_one, count_singleton]
  · exact fun k => ⟨ways randMax max k 0, fun v hv => ways_eq hmax hv k⟩
  · exact fun rands hrands => randZero_check (fun z => within_eq) hmax hrands

theorem randZero_uniform_five :
    (∃ d ≤ 5, (randZero some (5 : ℕ) (2 : ℕ) [d]).isSome) ∧
      ∀ k, ∃ n, ∀ v ≤ (2 : ℕ), (count (List.replicate k (5 + 1)) fun rands =>
        (randZero some (5 : ℕ) (2 : ℕ) rands).map Prod.fst = some (v : ℤ)) = n :=
  have h := randZero_uniform (show 2 ≤ 5 by decide)
  ⟨h.1, h.2.2.2.1⟩

end InterviewQuestions.RandShrink

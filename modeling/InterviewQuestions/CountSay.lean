import InterviewQuestions.Library.Runs
import InterviewQuestions.Library.Scanf

/-! `arrays_strings/count_say/solution.cpp`. There is no result where an index is out of range or
the fuel of a loop does not last. -/
namespace InterviewQuestions.CountSay

open Library Library.RunLength

/-- The inner loop, to the `count` at its end. -/
def countLoop (prev : List UInt8) (i : ℕ) : ℕ → ℕ → Option ℕ
  | 0, _ => none
  | fuel + 1, count =>
      if i + count < prev.length then do
        if (← prev[i]?) = (← prev[i + count]?) then countLoop prev i fuel (count + 1)
        else return count
      else some count

/-- The outer loop, to the string that was written. -/
def sayLoop (prev : List UInt8) : ℕ → ℕ → List UInt8 → Option (List UInt8)
  | 0, _, _ => none
  | fuel + 1, i, res =>
      if i < prev.length then do
        let count ← countLoop prev i (prev.length + 1) 0
        sayLoop prev fuel (i + count) (res ++ (Scanf.printNat count ++ [← prev[i]?]))
      else some res

/-- `n - 1` is the greatest number for `n = 0`. -/
def countAndSay (n : UInt32) : Option (List UInt8) :=
  if n = 1 then some [49]
  else do
    let prev ← countAndSay (n - 1)
    sayLoop prev (prev.length + 1) 0 []
termination_by (n - 1).toNat
decreasing_by
  rename_i hn
  have hne : n.toNat ≠ 1 := fun h => hn (UInt32.toNat_inj.mp h)
  have hlt := n.toNat_lt
  rw [UInt32.toNat_sub, UInt32.toNat_sub]
  simp only [UInt32.toNat_one]
  omega

/-! ## The loops -/

variable {prev front rest res : List UInt8} {x : UInt8} {k count fuel : ℕ}

theorem countLoop_eq (hprev : prev = front ++ (List.replicate k x ++ rest))
    (hrest : rest.head? ≠ some x) (hk : 0 < k) (hcount : count ≤ k) (hfuel : k < fuel + count) :
    countLoop prev front.length fuel count = some k := by
  have hread (j : ℕ) : prev[front.length + j]? = (List.replicate k x ++ rest)[j]? := by
    rw [hprev, List.getElem?_append_right (Nat.le_add_right _ _), Nat.add_sub_cancel_left]
  have hrun (j : ℕ) (hj : j < k) : prev[front.length + j]? = some x := by
    rw [hread, List.getElem?_append_left (by simpa using hj), List.getElem?_replicate_of_lt hj]
  have hlen : prev.length = front.length + (k + rest.length) := by
    rw [hprev, List.length_append, List.length_append, List.length_replicate]
  have hfirst : prev[front.length]? = some x := hrun 0 hk
  induction fuel generalizing count with
  | zero => omega
  | succ fuel ih =>
    rw [countLoop]
    rcases Nat.eq_or_lt_of_le hcount with rfl | hlt
    · by_cases hin : front.length + count < prev.length
      · obtain ⟨y, rest, rfl⟩ : ∃ y rest', rest = y :: rest' :=
          List.exists_cons_of_length_pos (by omega)
        have hnext : prev[front.length + count]? = some y := by
          rw [hread, List.getElem?_append_right (by simp)]
          simp
        rw [if_pos hin, hfirst, hnext]
        exact if_neg fun hxy => hrest (congrArg some hxy.symm)
      · rw [if_neg hin]
    · rw [if_pos (by omega), hfirst, hrun count hlt]
      simp only [Option.bind_eq_bind, Option.bind_some, if_true]
      exact ih hlt (by omega)

/-- What is written for the runs of a string. -/
def said (ps : List (ℕ × UInt8)) : List UInt8 :=
  ps.flatMap fun p => Scanf.printNat p.1 ++ [p.2]

theorem sayLoop_eq (hprev : prev = front ++ rest) (hfuel : rest.length < fuel) :
    sayLoop prev fuel front.length res = some (res ++ said (runs rest)) := by
  induction fuel generalizing front rest res with
  | zero => omega
  | succ fuel ih =>
    cases rest with
    | nil =>
      have hend : ¬ front.length < prev.length := by
        rw [hprev, List.append_nil]
        exact Nat.lt_irrefl _
      rw [sayLoop, if_neg hend, runs, said, List.flatMap_nil, List.append_nil]
    | cons x rest =>
      have hlt : front.length < prev.length := by
        rw [hprev, List.length_append, List.length_cons]
        omega
      obtain ⟨k, back, hsplit, hback⟩ := exists_run x rest
      have hlen := congrArg List.length hsplit
      rw [List.length_append, List.length_replicate] at hlen
      have hread : prev[front.length]? = some x := by
        rw [hprev, List.getElem?_append_right (Nat.le_refl _), Nat.sub_self]
        rfl
      have hcount : countLoop prev front.length (prev.length + 1) 0 = some (k + 1) := by
        refine countLoop_eq (hprev.trans (by rw [hsplit])) hback (Nat.succ_pos k) (Nat.zero_le _) ?_
        rw [hprev, List.length_append]
        omega
      have hnext : sayLoop prev fuel (front ++ List.replicate (k + 1) x).length
          (res ++ (Scanf.printNat (k + 1) ++ [x])) =
            some (res ++ (Scanf.printNat (k + 1) ++ [x]) ++ said (runs back)) :=
        ih (by rw [hprev, hsplit, List.append_assoc]) (by omega)
      rw [List.length_append, List.length_replicate] at hnext
      rw [sayLoop, if_pos hlt, hcount, hread]
      simp only [Option.bind_eq_bind, Option.bind_some]
      rw [hnext, hsplit, runs_replicate_append k x hback, said, List.append_assoc]
      rfl

/-! ## The strings of the sequence -/

/-- A digit 1, 2 or 3. -/
def IsCount (c : UInt8) : Prop := c = 49 ∨ c = 50 ∨ c = 51

/-- What all strings of the sequence have in common: no digit is repeated more than three times. -/
structure Good (s : List UInt8) : Prop where
  ne_nil : s ≠ []
  digits : ∀ c ∈ s, IsCount c
  runs_le : ∀ p ∈ runs s, p.1 ≤ 3

/-- A count and a digit, as characters. -/
def charPair (p : ℕ × UInt8) : UInt8 × UInt8 := (UInt8.ofNat (48 + p.1), p.2)

variable {s : List UInt8}

theorem printNat_of_lt {n : ℕ} (hpos : 0 < n) (hn : n < 10) :
    Scanf.printNat n = [UInt8.ofNat (48 + n)] := by
  rw [Scanf.printNat, if_neg hpos.ne', Nat.digits_of_lt 10 n hpos.ne' hn]
  rfl

theorem said_runs (hs : Good s) : said (runs s) = spoken ((runs s).map charPair) := by
  rw [said, spoken, List.flatMap_map]
  refine List.flatMap_congr fun p hp => ?_
  have hle := hs.runs_le p hp
  rw [printNat_of_lt (pos_of_mem_runs hp) (by omega)]
  rfl

theorem isCount_ofNat {n : ℕ} (hpos : 0 < n) (hn : n ≤ 3) : IsCount (UInt8.ofNat (48 + n)) := by
  obtain rfl | rfl | rfl : n = 1 ∨ n = 2 ∨ n = 3 := by omega
  · exact .inl rfl
  · exact .inr (.inl rfl)
  · exact .inr (.inr rfl)

theorem runs_ne_nil (hs : s ≠ []) : runs s ≠ [] := by
  intro hnil
  have hexpand := expand_runs s
  rw [hnil] at hexpand
  exact hs hexpand.symm

theorem map_snd_charPair (ps : List (ℕ × UInt8)) :
    (ps.map charPair).map Prod.snd = ps.map Prod.snd := by
  rw [List.map_map]
  rfl

/-- Four equal characters in a row would span two neighbouring runs of the string before. -/
theorem Good.said (hs : Good s) : Good (said (runs s)) := by
  have hsaid := said_runs hs
  constructor
  · rw [hsaid]
    obtain ⟨p, ps, hps⟩ := List.exists_cons_of_ne_nil (runs_ne_nil hs.ne_nil)
    rw [hps]
    exact List.cons_ne_nil _ _
  · rw [hsaid]
    intro c hc
    obtain ⟨q, hq, hcq⟩ := List.mem_flatMap.mp hc
    obtain ⟨p, hp, rfl⟩ := List.mem_map.mp hq
    rcases List.mem_pair.mp hcq with rfl | rfl
    · exact isCount_ofNat (pos_of_mem_runs hp) (hs.runs_le p hp)
    · exact hs.digits _ (mem_of_mem_runs hp)
  · intro p hp
    by_contra hlong
    obtain ⟨front, back, hsplit⟩ := exists_of_mem_runs (n := 4) hp (by omega)
    rw [hsaid] at hsplit
    refine spoken_ne_four ?_ front back p.2 hsplit
    rw [map_snd_charPair]
    exact apart_runs s

theorem good_one : Good [49] where
  ne_nil := List.cons_ne_nil _ _
  digits := fun c hc => .inl (List.mem_singleton.mp hc)
  runs_le := fun p hp => by
    rw [List.mem_singleton.mp hp]
    decide

/-- The next string is what is said of this one; `n + 1` may be 0. -/
theorem countAndSay_succ {n : UInt32} (hn : n ≠ 0) (hs : countAndSay n = some s) :
    countAndSay (n + 1) = some (said (runs s)) := by
  have hone : n + 1 ≠ 1 := fun h => hn (by simpa using h)
  have hsay : sayLoop s (s.length + 1) ([] : List UInt8).length [] =
      some ([] ++ said (runs s)) := sayLoop_eq rfl (Nat.lt_succ_self _)
  rw [countAndSay, if_neg hone, UInt32.add_sub_cancel, hs]
  exact hsay

theorem exists_good (n : UInt32) (hn : n ≠ 0) : ∃ s, countAndSay n = some s ∧ Good s := by
  obtain ⟨k, hk⟩ : ∃ k, n.toNat = k + 1 :=
    Nat.exists_eq_succ_of_ne_zero fun h => hn (UInt32.toNat_inj.mp h)
  induction k generalizing n with
  | zero =>
    obtain rfl : n = 1 := UInt32.toNat_inj.mp hk
    exact ⟨[49], by rw [countAndSay, if_pos rfl], good_one⟩
  | succ k ih =>
    have hlt := n.toNat_lt
    have hprev : (n - 1).toNat = k + 1 := by
      rw [UInt32.toNat_sub, UInt32.toNat_one]
      omega
    have hne : n - 1 ≠ 0 := fun h => by
      rw [h] at hprev
      cases hprev
    obtain ⟨s, hs, hgood⟩ := ih (n - 1) hne hprev
    have hnext := countAndSay_succ hne hs
    rw [UInt32.sub_add_cancel] at hnext
    exact ⟨_, hnext, hgood.said⟩

/-- Pairs of a count and a digit; there is no result for a character without a pair. -/
def readPairs : List UInt8 → Option (List (UInt8 × UInt8))
  | [] => some []
  | [_] => none
  | c :: d :: rest => (readPairs rest).map ((c, d) :: ·)

theorem readPairs_spoken (ps : List (UInt8 × UInt8)) : readPairs (spoken ps) = some ps := by
  induction ps with
  | nil => rfl
  | cons p ps ih => exact congrArg (Option.map _) ih

/-- What pairs expand to: the digit as often as the count says. -/
def expandPairs (ps : List (UInt8 × UInt8)) : List UInt8 :=
  ps.flatMap fun p => List.replicate (p.1.toNat - 48) p.2

theorem expandPairs_charPair {ps : List (ℕ × UInt8)} (h : ∀ p ∈ ps, p.1 ≤ 3) :
    expandPairs (ps.map charPair) = expand ps := by
  rw [expandPairs, expand, List.flatMap_map]
  refine List.flatMap_congr fun p hp => ?_
  have hle := h p hp
  have hcount : (charPair p).1.toNat = 48 + p.1 := Nat.mod_eq_of_lt (by omega)
  rw [hcount, Nat.add_sub_cancel_left]
  rfl

/-- Each string of the sequence consists of the digits 1, 2 and 3, and the next one is read as pairs
that expand to it. -/
theorem countAndSay_spec (n : UInt32) (hn : 1 ≤ n) :
    ∃ s t ps, countAndSay n = some s ∧ countAndSay (n + 1) = some t ∧ s ≠ [] ∧
      (∀ c ∈ s, IsCount c) ∧ readPairs t = some ps ∧ (∀ p ∈ ps, IsCount p.1) ∧
      (ps.map Prod.snd).IsChain (· ≠ ·) ∧ expandPairs ps = s := by
  have hne : n ≠ 0 := by
    rintro rfl
    exact absurd hn (by decide)
  obtain ⟨s, hs, hgood⟩ := exists_good n hne
  refine ⟨s, said (runs s), (runs s).map charPair, hs, countAndSay_succ hne hs, hgood.ne_nil,
    hgood.digits, ?_, ?_, ?_, ?_⟩
  · rw [said_runs hgood, readPairs_spoken]
  · intro p hp
    obtain ⟨q, hq, rfl⟩ := List.mem_map.mp hp
    exact isCount_ofNat (pos_of_mem_runs hq) (hgood.runs_le q hq)
  · rw [map_snd_charPair]
    exact apart_runs s
  · rw [expandPairs_charPair hgood.runs_le, expand_runs]

theorem countAndSay_spec_one :
    ∃ s t ps, countAndSay 1 = some s ∧ countAndSay (1 + 1) = some t ∧ s ≠ [] ∧
      (∀ c ∈ s, IsCount c) ∧ readPairs t = some ps ∧ (∀ p ∈ ps, IsCount p.1) ∧
      (ps.map Prod.snd).IsChain (· ≠ ·) ∧ expandPairs ps = s :=
  countAndSay_spec 1 (by decide)

end InterviewQuestions.CountSay

import InterviewQuestions.Library.Swaps
import InterviewQuestions.Library.Scanf

/-! `recursion_dp/switch/solution.cpp`. There is no result where an index is out of range. -/
namespace InterviewQuestions.Switch

open Library Scanf

/-- `arr[i] = !arr[i]` -/
def flip (arr : List Bool) (i : ℕ) : Option (List Bool) := arr[i]?.map fun b => arr.set i !b

def switchOp (arr : List Bool) (arrSz i : ℕ) : Option (List Bool) :=
  (if i > 0 then flip arr (i - 1) else some arr).bind fun arr =>
    (flip arr i).bind fun arr =>
      if i < arrSz - 1 then flip arr (i + 1) else some arr

/-- `switch(curr, source)` and a newline -/
def line (curr : ℕ) : List UInt8 :=
  [115, 119, 105, 116, 99, 104, 40] ++ printNat curr ++
    [44, 32, 115, 111, 117, 114, 99, 101, 41, 10]

/-- `buff.erase(pos, len)` -/
def erase (buff : List UInt8) (pos len : ℕ) : List UInt8 := buff.take pos ++ buff.drop (pos + len)

/-- The answer, the source and the buffer. The recursion is at most `depth` calls deep. -/
def switchAux (target : List Bool) (n : ℕ) :
    ℕ → List Bool → ℕ → List UInt8 → Option (Bool × List Bool × List UInt8)
  | 0, _, _, _ => none
  | depth + 1, source, curr, buff =>
      if curr = n then some (source.take n == target, source, buff)
      else do
        let (found, source, buff) ← switchAux target n depth source (curr + 1) buff
        if found then return (true, source, buff)
        let sizeBefore := buff.length
        let buff := buff ++ line curr
        let source ← switchOp source n curr
        let (found, source, buff) ← switchAux target n depth source (curr + 1) buff
        if found then
          let source ← switchOp source n curr
          return (true, source, buff)
        let buff := erase buff sizeBefore buff.length
        let source ← switchOp source n curr
        return (false, source, buff)

def switchPossible (source target : List Bool) (n : ℕ) (res : List UInt8) :
    Option (Bool × List Bool × List UInt8) := switchAux target n (n + 1) source 0 res

/-! ## One switch -/

variable {source target arr : List Bool} {p : ℕ → Bool} {i j k n curr depth : ℕ} {buff : List UInt8}

/-- The places for which `p` holds are changed. -/
def changed (p : ℕ → Bool) (arr : List Bool) : List Bool := arr.mapIdx fun k b => b ^^ p k

/-- Switch `i` changes its own place and the two next to it. -/
def near (i k : ℕ) : Bool := i ≤ k + 1 && k ≤ i + 1

def toggle (i : ℕ) (arr : List Bool) : List Bool := changed (near i) arr

@[simp] theorem length_changed (p : ℕ → Bool) (arr : List Bool) :
    (changed p arr).length = arr.length := List.length_mapIdx

@[simp] theorem length_toggle (i : ℕ) (arr : List Bool) : (toggle i arr).length = arr.length :=
  length_changed _ _

theorem getElem?_changed (p : ℕ → Bool) (arr : List Bool) (k : ℕ) :
    (changed p arr)[k]? = arr[k]?.map fun b => b ^^ p k := List.getElem?_mapIdx

theorem changed_changed (p q : ℕ → Bool) (arr : List Bool) :
    changed q (changed p arr) = changed (fun k => p k ^^ q k) arr := by
  apply List.ext_getElem?
  intro k
  simp only [getElem?_changed]
  cases arr[k]? with
  | none => rfl
  | some b => simp

theorem changed_congr {p q : ℕ → Bool} (h : ∀ k < arr.length, p k = q k) :
    changed p arr = changed q arr := by
  apply List.ext_getElem?
  intro k
  rw [getElem?_changed, getElem?_changed]
  by_cases hk : k < arr.length
  · rw [h k hk]
  · rw [List.getElem?_eq_none (Nat.le_of_not_lt hk)]
    rfl

theorem changed_false (h : ∀ k < arr.length, p k = false) : changed p arr = arr := by
  apply List.ext_getElem?
  intro k
  rw [getElem?_changed]
  by_cases hk : k < arr.length
  · rw [h k hk]
    simp
  · rw [List.getElem?_eq_none (Nat.le_of_not_lt hk)]
    rfl

theorem toggle_involutive (i : ℕ) : Function.Involutive (toggle i) := by
  intro arr
  unfold toggle
  rw [changed_changed]
  exact changed_false fun k _ => Bool.xor_self _

theorem toggle_comm (i j : ℕ) (arr : List Bool) :
    toggle i (toggle j arr) = toggle j (toggle i arr) := by
  unfold toggle
  rw [changed_changed, changed_changed]
  exact changed_congr fun k _ => Bool.xor_comm _ _

theorem flip_eq (hi : i < arr.length) : flip arr i = some (changed (fun k => k = i) arr) := by
  unfold flip
  rw [List.getElem?_eq_getElem hi, Option.map_some]
  congr 1
  apply List.ext_getElem?
  intro k
  rw [List.getElem?_set', getElem?_changed]
  by_cases hk : i = k
  · subst hk
    rw [if_pos rfl, List.getElem?_eq_getElem hi]
    simp
  · rw [if_neg hk, decide_eq_false (Ne.symm hk)]
    simp

theorem xor_decide {a b : Prop} [Decidable a] [Decidable b] (h : ¬ (a ∧ b)) :
    (decide a ^^ decide b) = decide (a ∨ b) := by
  by_cases ha : a
  · rw [decide_eq_true ha, decide_eq_false fun hb => h ⟨ha, hb⟩, decide_eq_true (.inl ha)]
    rfl
  · rw [decide_eq_false ha, Bool.false_xor]
    exact decide_eq_decide.mpr (or_iff_right ha).symm

theorem near_eq (i k : ℕ) : near i k = decide (i ≤ k + 1 ∧ k ≤ i + 1) := (Bool.decide_and _ _).symm

theorem switchOp_eq (hi : i < arr.length) : switchOp arr arr.length i = some (toggle i arr) := by
  have hleft : (if i > 0 then flip arr (i - 1) else some arr) =
      some (changed (fun k => k + 1 = i) arr) := by
    by_cases hpos : i > 0
    · rw [if_pos hpos, flip_eq (by omega)]
      congr 1
      exact changed_congr fun k _ => decide_eq_decide.mpr (by omega)
    · rw [if_neg hpos, changed_false fun k _ => decide_eq_false (by omega)]
  have hmid (k : ℕ) : (decide (k + 1 = i) ^^ decide (k = i)) = decide (k + 1 = i ∨ k = i) :=
    xor_decide (by omega)
  unfold switchOp
  rw [hleft, Option.bind_some, flip_eq (by simpa using hi), Option.bind_some, changed_changed]
  by_cases hright : i < arr.length - 1
  · rw [if_pos hright, flip_eq (by rw [length_changed]; omega), changed_changed]
    congr 1
    apply changed_congr
    intro k _
    rw [hmid, xor_decide (by omega), near_eq]
    exact decide_eq_decide.mpr (by omega)
  · rw [if_neg hright]
    congr 1
    apply changed_congr
    intro k hk
    rw [hmid, near_eq]
    exact decide_eq_decide.mpr (by omega)

/-! ## The search -/

theorem erase_append (buff more : List UInt8) :
    erase (buff ++ more) buff.length (buff ++ more).length = buff := by
  unfold erase
  rw [List.take_left, List.drop_of_length_le (by omega), List.append_nil]

/-- The switches from `curr` on, each at most once, can turn the source into the target. -/
def Possible (source target : List Bool) (curr n : ℕ) (once : List ℕ) : Prop :=
  once.Sublist (List.range' curr (n - curr)) ∧ perform toggle once source = target

theorem possible_end (source target : List Bool) (n : ℕ) {once : List ℕ} :
    Possible source target n n once ↔ once = [] ∧ source = target := by
  unfold Possible
  rw [Nat.sub_self, List.range'_zero, List.sublist_nil]
  exact and_congr_right fun h => by rw [h, perform_nil]

theorem possible_step (hcurr : curr < n) {once : List ℕ} :
    Possible source target curr n once ↔ Possible source target (curr + 1) n once ∨
      ∃ rest, once = curr :: rest ∧ Possible (toggle curr source) target (curr + 1) n rest := by
  obtain ⟨count, hcount⟩ : ∃ count, n - curr = count + 1 := ⟨n - curr - 1, by omega⟩
  have hrest : n - (curr + 1) = count := by omega
  unfold Possible
  rw [hcount, hrest, List.range'_succ, List.sublist_cons_iff, or_and_right]
  refine or_congr_right ?_
  constructor
  · rintro ⟨⟨rest, rfl, hsub⟩, heq⟩
    exact ⟨rest, rfl, hsub, heq⟩
  · rintro ⟨rest, rfl, hsub, heq⟩
    exact ⟨⟨rest, rfl, hsub⟩, heq⟩

theorem switchOp_toggle (hlt : curr < n) (hsource : source.length = n) :
    switchOp source n curr = some (toggle curr source) := by
  subst hsource
  exact switchOp_eq hlt

/-- The same switch once more takes the effect back. -/
theorem switchOp_back (hlt : curr < n) (hsource : source.length = n) :
    switchOp (toggle curr source) n curr = some source := by
  have hlen : (toggle curr source).length = n := by rwa [length_toggle]
  rw [switchOp_toggle hlt hlen, toggle_involutive curr source]

/-- The source comes back as it was, and the buffer gets a line for every switch that is needed. -/
theorem switchAux_spec (hcurr : curr ≤ n) (hsource : source.length = n)
    (htarget : target.length = n)
    (hdepth : n < depth + curr) (buff : List UInt8) :
    (∃ once, Possible source target curr n once ∧
      switchAux target n depth source curr buff =
        some (true, source, buff ++ once.flatMap line)) ∨
    ((¬ ∃ once, Possible source target curr n once) ∧
      switchAux target n depth source curr buff = some (false, source, buff)) := by
  induction depth generalizing source curr buff with
  | zero => omega
  | succ depth ih =>
    rw [switchAux]
    rcases Nat.lt_or_eq_of_le hcurr with hlt | rfl
    · rw [if_neg (Nat.ne_of_lt hlt)]
      simp only [possible_step hlt]
      have hop := switchOp_toggle hlt hsource
      have hback := switchOp_back hlt hsource
      rcases ih hlt hsource (by omega) buff with ⟨once, honce, hrun⟩ | ⟨hnone, hrun⟩
      · refine .inl ⟨once, .inl honce, ?_⟩
        rw [hrun]
        rfl
      · rw [hrun]
        have hlen : (toggle curr source).length = n := by simpa using hsource
        rcases ih hlt hlen (by omega) (buff ++ line curr) with ⟨rest, hrest, hrun⟩ | ⟨hnone', hrun⟩
        · refine .inl ⟨curr :: rest, .inr ⟨rest, rfl, hrest⟩, ?_⟩
          simp only [Option.bind_eq_bind, Option.bind_some, Bool.false_eq_true, if_false, hop, hrun,
            if_true, hback]
          rw [List.flatMap_cons, List.append_assoc]
          rfl
        · refine .inr ⟨?_, ?_⟩
          · rintro ⟨once, honce | ⟨rest, -, hrest⟩⟩
            · exact hnone ⟨once, honce⟩
            · exact hnone' ⟨rest, hrest⟩
          · simp only [Option.bind_eq_bind, Option.bind_some, Bool.false_eq_true, if_false, hop,
              hrun, hback, erase_append]
            rfl
    · rw [if_pos rfl, List.take_of_length_le (Nat.le_of_eq hsource)]
      simp only [possible_end]
      by_cases heq : source = target
      · refine .inl ⟨[], ⟨rfl, heq⟩, ?_⟩
        rw [heq, beq_self_eq_true]
        simp
      · refine .inr ⟨fun ⟨_, _, h⟩ => heq h, ?_⟩
        rw [beq_eq_false_iff_ne.mpr heq]

/-! ## All sequences of switches -/

/-- The calls of `switch_op` for the indices of the list in turn. -/
def switches (ops : List ℕ) (source : List Bool) : Option (List Bool) :=
  ops.foldlM (fun arr i => switchOp arr source.length i) source

theorem length_flip {arr' : List Bool} (h : flip arr i = some arr') : arr'.length = arr.length := by
  obtain ⟨b, -, rfl⟩ := Option.map_eq_some_iff.mp h
  exact List.length_set

theorem lt_length_of_switchOp {arr' : List Bool} (h : switchOp arr n i = some arr') :
    i < arr.length := by
  obtain ⟨left, hleft, h⟩ := Option.bind_eq_some_iff.mp h
  obtain ⟨mid, hmid, -⟩ := Option.bind_eq_some_iff.mp h
  have hlen : left.length = arr.length := by
    split at hleft
    · exact length_flip hleft
    · cases hleft
      rfl
  obtain ⟨b, hb, -⟩ := Option.map_eq_some_iff.mp hmid
  exact hlen ▸ (List.getElem?_eq_some_iff.mp hb).1

theorem foldlM_switchOp (ops : List ℕ) (hn : arr.length = n) {arr' : List Bool} :
    ops.foldlM (fun arr i => switchOp arr n i) arr = some arr' ↔
      (∀ i ∈ ops, i < n) ∧ perform toggle ops arr = arr' := by
  induction ops generalizing arr with
  | nil => simp
  | cons i ops ih =>
    rw [List.foldlM_cons, List.forall_mem_cons, perform_cons]
    subst hn
    by_cases hi : i < arr.length
    · rw [switchOp_eq hi, Option.bind_eq_bind, Option.bind_some, ih (length_toggle i arr)]
      simp only [hi, true_and]
    · refine iff_of_false (fun h => ?_) (fun h => hi h.1.1)
      obtain ⟨next, hnext, -⟩ := Option.bind_eq_some_iff.mp h
      exact hi (lt_length_of_switchOp hnext)

theorem exists_switches_iff :
    (∃ ops, switches ops source = some target) ↔
      ∃ once, Possible source target 0 source.length once := by
  unfold switches Possible
  simp only [foldlM_switchOp _ rfl, Nat.sub_zero, ← List.range_eq_range']
  constructor
  · rintro ⟨ops, hops, rfl⟩
    obtain ⟨once, hsub, heq⟩ := exists_sublist_perform toggle_involutive toggle_comm
      (fun i hi => List.mem_range.mpr (hops i hi)) source
    exact ⟨once, hsub, heq.symm⟩
  · rintro ⟨once, hsub, heq⟩
    exact ⟨once, fun i hi => List.mem_range.mp (hsub.subset hi), heq⟩

theorem switches_of_possible {once : List ℕ} (h : Possible source target 0 source.length once) :
    switches once source = some target := by
  refine (foldlM_switchOp once rfl).mpr ⟨fun i hi => ?_, h.2⟩
  have hmem := h.1.subset hi
  rw [List.mem_range'_1] at hmem
  omega

theorem switchPossible_spec (hlen : source.length = target.length) (res : List UInt8) :
    ∃ found res', switchPossible source target source.length res = some (found, source, res') ∧
      (found = true ↔ ∃ ops, switches ops source = some target) ∧
      (found = true →
      ∃ ops, res' = res ++ ops.flatMap line ∧ switches ops source = some target) := by
  rcases switchAux_spec (Nat.zero_le _) rfl hlen.symm (Nat.lt_succ_self source.length) res with
    ⟨once, honce, hrun⟩ | ⟨hnone, hrun⟩
  · have hswitches := switches_of_possible honce
    exact ⟨true, _, hrun, iff_of_true rfl ⟨once, hswitches⟩, fun _ => ⟨once, rfl, hswitches⟩⟩
  · refine ⟨false, res, hrun, iff_of_false Bool.false_ne_true ?_,
      fun h => absurd h Bool.false_ne_true⟩
    rwa [exists_switches_iff]

theorem switchPossible_spec_three : ([true, false, false] : List Bool).length =
      ([false, true, false] : List Bool).length ∧
    ∃ found res', switchPossible [true, false, false] [false, true, false] 3 [] =
        some (found, [true, false, false], res') ∧
      (found = true ↔ ∃ ops, switches ops [true, false, false] = some [false, true, false]) ∧
      (found = true → ∃ ops, res' = [] ++ ops.flatMap line ∧
        switches ops [true, false, false] = some [false, true, false]) :=
  ⟨by decide, switchPossible_spec (by decide) []⟩

end InterviewQuestions.Switch

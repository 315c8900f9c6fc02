import InterviewQuestions.BigintSum.ForwardSum
import Mathlib.Data.Nat.Digits.Lemmas

/-! How many nodes of its buffer `bigint_sum` needs: for the zeros, for the digits, and one more
when there is something left to carry. -/
namespace InterviewQuestions.BigintSum

open Library LinkedCells CarryChain

def MAX_OPERAND_DIGITS : ℕ := 1024

variable {mem mem' : Memory} {head h1 h2 : Option ℕ} {buff size k fuel : ℕ} {us vs : List ℕ}

/-- The number that these digits, most significant digit first, are. -/
def value (us : List ℕ) : ℕ := Nat.ofDigits 10 us.reverse

def neededNodes (us vs : List ℕ) : ℕ :=
  max us.length vs.length - min us.length vs.length + max us.length vs.length +
    if 10 ^ max us.length vs.length ≤ value us + value vs then 1 else 0

/-- The call ends and writes to nothing but the first `size` nodes of the buffer. -/
def WritesOnly (fuel : ℕ) (mem : Memory) (h1 h2 : Option ℕ) (buff size : ℕ) : Prop :=
  ∃ mem' head, bigintSum fuel mem h1 h2 buff = some (mem', head) ∧
    ∀ a, ¬ InBuffer buff size a → mem' a = mem a

theorem carry_columns (hu : ∀ u ∈ us, u < 10) (hv : ∀ v ∈ vs, v < 10) :
    carry 10 0 (columns us.reverse vs.reverse) =
      if 10 ^ max us.length vs.length ≤ value us + value vs then 1 else 0 := by
  have hcolumns := lt_of_mem_columns (fun x hx => hu x (List.mem_reverse.mp hx))
    fun y hy => hv y (List.mem_reverse.mp hy)
  have hle := carry_le_one hcolumns (Nat.zero_le 1)
  have hvalue := ofDigits_digits 10 0 (columns us.reverse vs.reverse)
  have hlt := Nat.ofDigits_lt_base_pow_length (by decide)
    (digits_lt (by decide : 0 < 10) 0 (columns us.reverse vs.reverse))
  rw [length_digits, length_columns, List.length_reverse, List.length_reverse] at hlt
  rw [length_columns, List.length_reverse, List.length_reverse, ofDigits_columns,
    Nat.add_zero] at hvalue
  change _ = value us + value vs at hvalue
  interval_cases hc : carry 10 0 (columns us.reverse vs.reverse)
  · rw [if_neg (by omega)]
  · rw [if_pos (by omega)]

/-! ## More nodes than there are -/

theorem setNext_eq_none {a : ℕ} (h : mem a = none) (next : Option ℕ) :
    setNext mem a next = none := by
  rw [setNext, h]
  rfl

theorem setData_eq_none {a : ℕ} (h : mem a = none) (v : ℤ) : setData mem a v = none := by
  rw [setData, h]
  rfl

theorem listPrependZeros_eq_none (hroom : Room mem buff size) (hend : mem (buff + size) = none)
    (hk : size < k) : listPrependZeros mem head buff k = none := by
  apply foldlM_range'_eq_none size fun _ s => Room s.1 buff size ∧ s.1 (buff + size) = none
  · rintro i ⟨mem₁, head₁⟩ s hi ⟨hroom₁, hend₁⟩ hbody
    simp only [Option.bind_eq_bind] at hbody
    rw [← Option.bind_assoc, setData_setNext (hroom₁ i hi)] at hbody
    cases hbody
    have hne : buff + size ≠ buff + i := by omega
    exact ⟨hroom₁.update, (Function.update_of_ne hne ..).trans hend₁⟩
  · rintro ⟨mem₁, head₁⟩ ⟨-, hend₁⟩
    simp only [setData_eq_none hend₁]
    rfl
  · exact Nat.zero_le size
  · rwa [Nat.zero_add]
  · exact ⟨hroom, hend⟩

theorem padOperands_eq_none (h : Operands mem h1 h2 buff size us vs)
    (hend : mem (buff + size) = none) (hfuel : max us.length vs.length < fuel)
    (hsize : size < max us.length vs.length - min us.length vs.length) :
    padOperands fuel mem h1 h2 buff = none := by
  obtain ⟨hlength1, hlength2⟩ := h.listLength_eq hfuel
  rw [padOperands, hlength1, hlength2]
  simp only [Option.bind_eq_bind, Option.bind_some]
  rcases Nat.lt_or_gt_of_ne (show us.length ≠ vs.length by omega) with hlt | hgt
  · rw [if_pos (Nat.ne_of_lt hlt), if_pos hlt,
      listPrependZeros_eq_none h.room hend (by omega), Option.bind_none]
  · rw [if_pos (Nat.ne_of_gt hgt), if_neg (by omega),
      listPrependZeros_eq_none h.room hend (by omega), Option.bind_none]

theorem bigintSumAux_eq_none (hus : Digits (fun a => ¬ InBuffer buff size a) mem h1 us)
    (hvs : Digits (fun a => ¬ InBuffer buff size a) mem h2 vs) (hroom : Room mem buff size)
    (hend : mem (buff + size) = none) (hu : ∀ u ∈ us, u < 10) (hv : ∀ v ∈ vs, v < 10)
    (hlen : us.length = vs.length) (hsize : size < us.length) (hfuel : us.length < fuel) :
    bigintSumAux mem buff fuel h1 h2 = none := by
  induction us generalizing h1 h2 vs fuel with
  | nil => exact absurd hsize (Nat.not_lt_zero _)
  | cons u us ih =>
    cases fuel with
    | zero => exact absurd hfuel (Nat.not_lt_zero _)
    | succ fuel =>
      cases vs with
      | nil => cases hlen
      | cons v vs =>
        obtain ⟨a, next, rfl, ha, hcell, hrest⟩ := hus.uncons
        obtain ⟨b, next', rfl, hb, hcell', hrest'⟩ := hvs.uncons
        rw [List.forall_mem_cons] at hu hv
        rw [List.length_cons] at hsize hfuel
        rw [bigintSumAux, hcell, hcell']
        simp only [Option.bind_eq_bind, Option.bind_some]
        rcases Nat.lt_or_eq_of_le (Nat.le_of_lt_succ hsize) with hlt | heq
        · rw [ih hrest hrest' hu.2 hv.2 (Nat.succ.inj hlen) hlt (Nat.lt_of_succ_lt_succ hfuel),
            Option.bind_none]
        · obtain ⟨mem', rest, haux, hadded⟩ := bigintSumAux_spec hrest hrest' hroom hu.2 hv.2
            (Nat.succ.inj hlen) heq.ge (Nat.lt_of_succ_lt_succ hfuel)
          have hwrite : mem' (buff + rest.buffI) = none := by
            rw [hadded.buffI, ← heq, hadded.same _ (heq ▸ not_inBuffer_end), hend]
          simp only [haux, Option.bind_some, setData_eq_none hwrite, Option.bind_none,
            Option.bind_fun_none]

/-- There is a node too few: for a zero, for a digit, or for what is left to carry. -/
theorem bigintSum_eq_none (h : Operands mem h1 h2 buff size us vs)
    (hend : mem (buff + size) = none) (hu : ∀ u ∈ us, u < 10) (hv : ∀ v ∈ vs, v < 10)
    (hfuel : max us.length vs.length < fuel) (hsize : size < neededNodes us vs) :
    bigintSum fuel mem h1 h2 buff = none := by
  by_cases hpad : max us.length vs.length - min us.length vs.length ≤ size
  · obtain ⟨mem₁, h1', h2', k, us', vs', hpadded, hk, hsame⟩ := padOperands_spec h hu hv hfuel hpad
    have hlonger := hsame.longer
    have hend₁ : mem₁ (buff + size) = none := by
      rw [hsame.same _ not_inBuffer_end, hend]
    have hrest : buff + k + (size - k) = buff + size := by omega
    have hfuel' : us'.length < fuel := by omega
    have hroom := hsame.room.rest (show k ≤ size by omega)
    rw [bigintSum, hpadded]
    simp only [Option.bind_eq_bind, Option.bind_some]
    by_cases hdigits : us'.length ≤ size - k
    · obtain ⟨mem₂, res, haux, hadded⟩ := bigintSumAux_spec hsame.first hsame.second hroom
        hsame.small.1 hsame.small.2 hsame.length hdigits hfuel'
      have hcarry : res.carry = carry 10 0 (columns us.reverse vs.reverse) := by
        rw [hadded.carry, hsame.columns]
      rw [carry_columns hu hv] at hcarry
      unfold neededNodes at hsize
      by_cases hbig : 10 ^ max us.length vs.length ≤ value us + value vs
      · rw [if_pos hbig] at hcarry hsize
        have hend₂ : mem₂ (buff + (k + res.buffI)) = none := by
          have hlast : k + us'.length = size := by omega
          rw [hadded.buffI, ← Nat.add_assoc, hadded.same _ not_inBuffer_end, Nat.add_assoc, hlast,
            hend₁]
        have hne : res.carry ≠ 0 := by omega
        simp only [haux, Option.bind_some]
        rw [if_pos hne, setNext_eq_none hend₂, Option.bind_none]
      · rw [if_neg hbig] at hsize
        omega
    · rw [bigintSumAux_eq_none hsame.first hsame.second hroom (hrest ▸ hend₁) hsame.small.1
        hsame.small.2 hsame.length (not_le.mp hdigits) hfuel', Option.bind_none]
  · rw [bigintSum, padOperands_eq_none h hend hfuel (by omega)]
    rfl

/-- The nodes that are needed are all that is written to, and there is no node behind the buffer. -/
theorem writesOnly_iff_le (h : Operands mem h1 h2 buff size us vs)
    (hend : mem (buff + size) = none) (hu : ∀ u ∈ us, u < 10) (hv : ∀ v ∈ vs, v < 10)
    (hfuel : max us.length vs.length < fuel) :
    WritesOnly fuel mem h1 h2 buff size ↔ neededNodes us vs ≤ size := by
  constructor
  · rintro ⟨mem', head, hsome, -⟩
    by_contra hlt
    rw [bigintSum_eq_none h hend hu hv hfuel (not_le.mp hlt)] at hsome
    cases hsome
  · intro hneeded
    rw [neededNodes, ← carry_columns hu hv] at hneeded
    obtain ⟨mem', head, hsome, hreturned⟩ := bigintSum_spec h hu hv hneeded hfuel
    exact ⟨mem', head, hsome, hreturned.same⟩

/-- The buffer of the driver is large enough exactly for the operands whose zeros, digits and carry
fit into it. -/
theorem writesOnly_iff (h : Operands mem h1 h2 buff (MAX_OPERAND_DIGITS + 2) us vs)
    (hend : mem (buff + (MAX_OPERAND_DIGITS + 2)) = none) (hu : ∀ u ∈ us, u < 10)
    (hv : ∀ v ∈ vs, v < 10) (hfuel : max us.length vs.length < fuel) :
    WritesOnly fuel mem h1 h2 buff (MAX_OPERAND_DIGITS + 2) ↔
      neededNodes us vs ≤ MAX_OPERAND_DIGITS + 2 :=
  writesOnly_iff_le h hend hu hv hfuel

/-- The nodes of two lists of ones, the second of one digit, and the buffer behind them. -/
def onesMemory (digits : ℕ) : Memory := fun a : ℕ =>
  if a + 1 < digits then some ⟨1, some (a + 1)⟩
  else if a < digits + 1 then some ⟨1, none⟩
  else if a < digits + 1 + (MAX_OPERAND_DIGITS + 2) then some ⟨0, none⟩
  else none

theorem digits_onesMemory {digits : ℕ} (h : k < digits) :
    Digits (fun a => a < digits) (onesMemory digits) (some (digits - 1 - k))
      (List.replicate (k + 1) 1) := by
  induction k with
  | zero =>
    refine ⟨[(digits - 1, 1)], ⟨rfl, none, ?_, rfl⟩, rfl, by simp; omega⟩
    rw [onesMemory, if_neg (by omega), if_pos (by omega)]
  | succ k ih =>
    obtain ⟨cells, hholds, hdata, hcells⟩ := ih (Nat.lt_of_succ_lt h)
    refine ⟨(digits - 1 - (k + 1), 1) :: cells, ⟨rfl, _, ?_, hholds⟩, ?_, ?_⟩
    · have hnext : digits - 1 - (k + 1) + 1 = digits - 1 - k := by omega
      rw [onesMemory, if_pos (by omega), hnext]
    · rw [List.map_cons, hdata]
      rfl
    · rw [List.map_cons, List.forall_mem_cons]
      exact ⟨by omega, hcells⟩

theorem operands_onesMemory {digits : ℕ} (h : 0 < digits) :
    Operands (onesMemory digits) (some 0) (some digits) (digits + 1) (MAX_OPERAND_DIGITS + 2)
      (List.replicate digits 1) [1] where
  first := by
    have hdigits := digits_onesMemory (Nat.sub_one_lt_of_lt h)
    rw [Nat.sub_self, Nat.sub_add_cancel h] at hdigits
    apply hdigits.weaken
    intro a ha
    rw [InBuffer]
    omega
  second := by
    refine ⟨[(digits, 1)], ⟨rfl, none, ?_, rfl⟩, rfl, by simp [InBuffer]⟩
    rw [onesMemory, if_neg (by omega), if_pos (by omega)]
  room := by
    intro i hi
    rw [onesMemory, if_neg (by omega), if_neg (by omega), if_pos (by omega)]
    rfl

theorem onesMemory_end (digits : ℕ) :
    onesMemory digits (digits + 1 + (MAX_OPERAND_DIGITS + 2)) = none := by
  rw [onesMemory, if_neg (by omega), if_neg (by omega), if_neg (by omega)]

/-- Three digits and one. -/
theorem writesOnly_iff_three :
    WritesOnly 4 (onesMemory 3) (some 0) (some 3) (3 + 1) (MAX_OPERAND_DIGITS + 2) ↔
      neededNodes [1, 1, 1] [1] ≤ MAX_OPERAND_DIGITS + 2 :=
  writesOnly_iff (operands_onesMemory (by decide)) (onesMemory_end 3) (by decide) (by decide)
    (by decide)

/-- As many digits as there can be, and one: the zeros leave three nodes for all the digits. -/
theorem not_writesOnly_ones :
    ¬ WritesOnly (MAX_OPERAND_DIGITS + 1) (onesMemory MAX_OPERAND_DIGITS) (some 0)
      (some MAX_OPERAND_DIGITS) (MAX_OPERAND_DIGITS + 1) (MAX_OPERAND_DIGITS + 2) := by
  have hlen : (List.replicate MAX_OPERAND_DIGITS 1).length = MAX_OPERAND_DIGITS :=
    List.length_replicate ..
  rw [writesOnly_iff_le (operands_onesMemory (by decide)) (onesMemory_end _)
    (by simp) (by decide) (by rw [hlen]; decide), neededNodes, hlen]
  intro hle
  have hmany : MAX_OPERAND_DIGITS = 1024 := rfl
  simp only [List.length_singleton, hmany] at hle
  omega

end InterviewQuestions.BigintSum

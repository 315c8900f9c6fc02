import InterviewQuestions.BigintSum.ReversedSum
import InterviewQuestions.Library.CountingLoop

/-! `bigint_sum` finds the digits of the same sum on the way out of its recursion, once zeros from
the buffer have made both lists equally long. -/
namespace InterviewQuestions.BigintSum

open Library LinkedCells CarryChain

open Arithmetic (int)

variable {mem mem₀ mem' : Memory} {head h1 h2 : Option ℕ} {a b buff size k fuel v : ℕ}
  {ds xs ys us vs : List ℕ} {ok ok' : ℕ → Prop}

theorem InBuffer.mono (h : InBuffer buff k a) (hk : k ≤ size) : InBuffer buff size a :=
  ⟨h.1, h.2.trans_le (Nat.add_le_add_left hk buff)⟩

theorem Digits.weaken (h : Digits ok mem head ds) (hok : ∀ a, ok a → ok' a) :
    Digits ok' mem head ds := by
  obtain ⟨cells, hholds, hdata, hcells⟩ := h
  exact ⟨cells, hholds, hdata, fun a ha => hok a (hcells a ha)⟩

/-- A node in front that is none of those that follow. -/
theorem Digits.push (h : Digits ok mem head ds) (ha : ¬ ok a) (d : ℕ) :
    Digits (fun b => b = a ∨ ok b) (Function.update mem a (some ⟨(d : ℤ), head⟩)) (some a)
      (d :: ds) := by
  obtain ⟨cells, hholds, hdata, hok⟩ := h
  have hnotmem : a ∉ cells.map Prod.fst := fun hmem => ha (hok a hmem)
  refine ⟨(a, (d : ℤ)) :: cells, ?_, ?_, ?_⟩
  · exact (hholds.update hnotmem _).cons (Function.update_self ..)
  · rw [List.map_cons, List.map_cons, hdata]
  · rw [List.map_cons, List.forall_mem_cons]
    exact ⟨.inl rfl, fun b hb => .inr (hok b hb)⟩

theorem listLength_eq (h : Digits ok mem head ds) (hfuel : ds.length < fuel) :
    listLength mem fuel head = some ds.length := by
  induction ds generalizing head fuel with
  | nil =>
    cases fuel with
    | zero => exact absurd hfuel (Nat.not_lt_zero _)
    | succ fuel =>
      rw [h.nil]
      rfl
  | cons d ds ih =>
    cases fuel with
    | zero => exact absurd hfuel (Nat.not_lt_zero _)
    | succ fuel =>
      obtain ⟨a, next, rfl, -, hcell, hrest⟩ := h.uncons
      have hlength := ih hrest (Nat.lt_of_succ_lt_succ hfuel)
      rw [listLength, hcell]
      simp only [Option.bind_eq_bind, Option.bind_some, hlength]
      rfl

/-! ## Zeros -/

/-- The first `k` nodes of the buffer hold zeros, and nothing else has been written to. -/
structure Padded (mem₀ mem : Memory) (buff size k : ℕ) (head : Option ℕ) (ds : List ℕ) : Prop where
  digits : Digits (fun a => ¬ InBuffer (buff + k) (size - k) a) mem head (List.replicate k 0 ++ ds)
  room : Room mem buff size
  same : ∀ a, ¬ InBuffer buff size a → mem a = mem₀ a

theorem Padded.next (h : Padded mem₀ mem buff size k head ds) (hk : k < size) :
    ∃ mem', (setData mem (buff + k) 0).bind (fun mem => setNext mem (buff + k) head) =
        some mem' ∧ Padded mem₀ mem' buff size (k + 1) (some (buff + k)) ds := by
  have hnotok : ¬ ¬ InBuffer (buff + k) (size - k) (buff + k) := by
    rw [not_not, InBuffer]
    omega
  have hin : InBuffer buff size (buff + k) := by
    rw [InBuffer]
    omega
  have hzeros : List.replicate (k + 1) 0 ++ ds = 0 :: (List.replicate k 0 ++ ds) := by
    rw [List.replicate_succ, List.cons_append]
  refine ⟨_, setData_setNext (h.room k hk) 0 head, ?_, h.room.update, update_same h.same hin _⟩
  rw [hzeros]
  apply (h.digits.push hnotok 0).weaken
  intro a ha
  rw [InBuffer] at ha ⊢
  omega

theorem listPrependZeros_spec (h : Digits (fun a => ¬ InBuffer buff size a) mem head ds)
    (hroom : Room mem buff size) (hk : k ≤ size) :
    ∃ s : Memory × Option ℕ, listPrependZeros mem head buff k = some s ∧
      Padded mem s.1 buff size k s.2 ds := by
  have hstart : Padded mem mem buff size 0 head ds := ⟨h, hroom, fun _ _ => rfl⟩
  apply foldlM_range'_spec (fun i s => Padded mem s.1 buff size i s.2 ds)
  · intro i s _ hi hs
    obtain ⟨mem', hwrite, hnext⟩ := hs.next (by omega)
    refine ⟨(mem', some (buff + i)), ?_, hnext⟩
    simp only [Option.bind_eq_bind]
    rw [← Option.bind_assoc, hwrite]
    rfl
  · exact hstart
  · intro s hs
    rwa [Nat.zero_add] at hs

/-- Both operands with the same number of digits, none of which is in the rest of the buffer, and
the columns of their sum. -/
structure SameLength (mem₀ mem : Memory) (h1 h2 : Option ℕ) (buff size k : ℕ)
    (us vs us' vs' : List ℕ) : Prop where
  first : Digits (fun a => ¬ InBuffer (buff + k) (size - k) a) mem h1 us'
  second : Digits (fun a => ¬ InBuffer (buff + k) (size - k) a) mem h2 vs'
  room : Room mem buff size
  same : ∀ a, ¬ InBuffer buff size a → mem a = mem₀ a
  length : us'.length = vs'.length
  longer : us'.length = max us.length vs.length
  small : (∀ u ∈ us', u < 10) ∧ ∀ v ∈ vs', v < 10
  columns : columns us'.reverse vs'.reverse = columns us.reverse vs.reverse

theorem not_inBuffer_rest (h : ¬ InBuffer buff size a) (hk : k ≤ size) :
    ¬ InBuffer (buff + k) (size - k) a := by
  rw [InBuffer] at h ⊢
  omega

theorem forall_mem_zeros (h : ∀ u ∈ us, u < 10) (k : ℕ) :
    ∀ u ∈ List.replicate k 0 ++ us, u < 10 := by
  intro u hu
  rcases List.mem_append.mp hu with hzero | hu
  · rw [List.eq_of_mem_replicate hzero]
    decide
  · exact h u hu

theorem Operands.listLength_eq (h : Operands mem h1 h2 buff size us vs)
    (hfuel : max us.length vs.length < fuel) :
    listLength mem fuel h1 = some us.length ∧ listLength mem fuel h2 = some vs.length :=
  ⟨BigintSum.listLength_eq h.first (by omega), BigintSum.listLength_eq h.second (by omega)⟩

theorem padOperands_spec (h : Operands mem h1 h2 buff size us vs) (hu : ∀ u ∈ us, u < 10)
    (hv : ∀ v ∈ vs, v < 10) (hfuel : max us.length vs.length < fuel)
    (hsize : max us.length vs.length - min us.length vs.length ≤ size) :
    ∃ mem' h1' h2' k us' vs', padOperands fuel mem h1 h2 buff = some (mem', h1', h2', k) ∧
      k = max us.length vs.length - min us.length vs.length ∧
        SameLength mem mem' h1' h2' buff size k us vs us' vs' := by
  obtain ⟨hlength1, hlength2⟩ := h.listLength_eq hfuel
  rw [padOperands, hlength1, hlength2]
  simp only [Option.bind_eq_bind, Option.bind_some]
  rcases Nat.lt_trichotomy us.length vs.length with hlt | heq | hgt
  · obtain ⟨⟨mem', h1'⟩, hprepend, hpadded⟩ :=
      listPrependZeros_spec h.first h.room (k := vs.length - us.length) (by omega)
    rw [if_pos (Nat.ne_of_lt hlt), if_pos hlt, hprepend]
    refine ⟨mem', h1', h2, _, List.replicate (vs.length - us.length) 0 ++ us, vs, rfl, by omega, ?_⟩
    refine ⟨hpadded.digits, ?_, hpadded.room, hpadded.same, ?_, ?_, ⟨forall_mem_zeros hu _, hv⟩, ?_⟩
    · apply (h.second.congr hpadded.same).weaken
      intro a ha
      exact not_inBuffer_rest ha (by omega)
    · rw [List.length_append, List.length_replicate]
      omega
    · rw [List.length_append, List.length_replicate]
      omega
    · rw [List.reverse_append, List.reverse_replicate, columns_zeros_left]
      rw [List.length_reverse, List.length_reverse]
      omega
  · rw [if_neg (not_not.mpr heq)]
    refine ⟨mem, h1, h2, 0, us, vs, rfl, by omega, ?_⟩
    exact ⟨h.first, h.second, h.room, fun _ _ => rfl, heq, by omega, ⟨hu, hv⟩, rfl⟩
  · obtain ⟨⟨mem', h2'⟩, hprepend, hpadded⟩ :=
      listPrependZeros_spec h.second h.room (k := us.length - vs.length) (by omega)
    rw [if_pos (Nat.ne_of_gt hgt), if_neg (by omega), hprepend]
    refine ⟨mem', h1, h2', _, us, List.replicate (us.length - vs.length) 0 ++ vs, rfl, by omega, ?_⟩
    refine ⟨?_, hpadded.digits, hpadded.room, hpadded.same, ?_, by omega,
      ⟨hu, forall_mem_zeros hv _⟩, ?_⟩
    · apply (h.first.congr hpadded.same).weaken
      intro a ha
      exact not_inBuffer_rest ha (by omega)
    · rw [List.length_append, List.length_replicate]
      omega
    · rw [List.reverse_append, List.reverse_replicate, columns_zeros_right]
      rw [List.length_reverse, List.length_reverse]
      omega

/-! ## The recursion -/

theorem bmod_natCast (h : v < 20) : Int.bmod v (2 ^ 32) = v :=
  Int.bmod_eq_of_le (by omega) (by omega)

/-- What the recursion does with the digits of one place. -/
theorem bigintSumAux_some {mem₁ mem₂ : Memory} {u v : ℕ} {next next' : Option ℕ}
    {rest : ResultWrapper} (ha : mem a = some ⟨u, next⟩) (hb : mem b = some ⟨v, next'⟩)
    (haux : bigintSumAux mem buff fuel next next' = some (mem₁, rest))
    (ha' : mem₁ a = some ⟨u, next⟩) (hb' : mem₁ b = some ⟨v, next'⟩) (hsum : u + v < 20)
    (htotal : u + v + rest.carry < 20)
    (hwrite : (setData mem₁ (buff + rest.buffI) ((u + v + rest.carry) % 10 : ℕ)).bind
      (fun mem => setNext mem (buff + rest.buffI) rest.nextHead) = some mem₂) :
    bigintSumAux mem buff (fuel + 1) (some a) (some b) = some (mem₂,
      ⟨(u + v + rest.carry) / 10, some (buff + rest.buffI), rest.buffI + 1⟩) := by
  have hint : int ((u : ℤ) + v) = some ((u + v : ℕ) : ℤ) := by
    rw [Nat.cast_add, int, if_pos]
    omega
  have hvalue : Int.bmod (((u + v : ℕ) : ℤ) + rest.carry) (2 ^ 32) =
      ((u + v + rest.carry : ℕ) : ℤ) := by
    rw [← Nat.cast_add]
    exact bmod_natCast htotal
  have hdigit : Int.tmod ((u + v + rest.carry : ℕ) : ℤ) 10 =
      (((u + v + rest.carry) % 10 : ℕ) : ℤ) := (Int.ofNat_tmod _ 10).symm
  have hcarry : unsigned (Int.tdiv ((u + v + rest.carry : ℕ) : ℤ) 10) =
      (u + v + rest.carry) / 10 := by
    rw [Int.natCast_tdiv_eq_ediv, unsigned]
    omega
  rw [bigintSumAux, ha, hb]
  simp only [Option.bind_eq_bind, Option.bind_some]
  rw [haux, Option.bind_some]
  dsimp only
  rw [ha', hb', Option.bind_some, Option.bind_some, hint, Option.bind_some, hvalue, hdigit,
    ← Option.bind_assoc, hwrite, Option.bind_some, hcarry]
  rfl

/-- What has been added up when the recursion returns. -/
structure Added (mem₀ : Memory) (buff : ℕ) (mem : Memory) (res : ResultWrapper) (us vs : List ℕ) :
    Prop where
  digits : Digits (InBuffer buff us.length) mem res.nextHead
    (digits 10 0 (columns us.reverse vs.reverse)).reverse
  carry : res.carry = carry 10 0 (columns us.reverse vs.reverse)
  buffI : res.buffI = us.length
  same : ∀ a, ¬ InBuffer buff us.length a → mem a = mem₀ a

theorem columns_reverse_cons (hlen : us.length = vs.length) (u v : ℕ) :
    columns (u :: us).reverse (v :: vs).reverse =
      columns us.reverse vs.reverse ++ [u + v] := by
  rw [List.reverse_cons, List.reverse_cons]
  apply columns_append
  rw [List.length_reverse, List.length_reverse]
  exact hlen

theorem Added.carry_le_one {res : ResultWrapper} (h : Added mem₀ buff mem res us vs)
    (hu : ∀ u ∈ us, u < 10) (hv : ∀ v ∈ vs, v < 10) : res.carry ≤ 1 := by
  rw [h.carry]
  apply CarryChain.carry_le_one _ (Nat.zero_le 1)
  exact lt_of_mem_columns (fun x hx => hu x (List.mem_reverse.mp hx))
    fun y hy => hv y (List.mem_reverse.mp hy)

theorem not_inBuffer_end : ¬ InBuffer buff k (buff + k) := by
  rw [InBuffer]
  omega

/-- The digit of the next place goes into the next node of the buffer. -/
theorem Added.next {res : ResultWrapper} (h : Added mem₀ buff mem res us vs)
    (hlen : us.length = vs.length) (u v : ℕ) :
    Added mem₀ buff
      (Function.update mem (buff + res.buffI)
        (some ⟨(((u + v + res.carry) % 10 : ℕ) : ℤ), res.nextHead⟩))
      ⟨(u + v + res.carry) / 10, some (buff + res.buffI), res.buffI + 1⟩ (u :: us) (v :: vs) := by
  have hcolumns := columns_reverse_cons hlen u v
  constructor
  case digits =>
    rw [hcolumns, digits_append, CarryChain.digits, CarryChain.digits, List.reverse_append,
      List.reverse_singleton, List.singleton_append, h.carry, h.buffI]
    apply (h.digits.push not_inBuffer_end _).weaken
    intro c hc
    rw [List.length_cons]
    unfold InBuffer at hc ⊢
    omega
  case carry =>
    rw [hcolumns, carry_append, CarryChain.carry, CarryChain.carry, h.carry]
  case buffI => rw [h.buffI, List.length_cons]
  case same =>
    intro c hc
    rw [List.length_cons] at hc
    unfold InBuffer at hc
    have hne : c ≠ buff + res.buffI := by
      rw [h.buffI]
      omega
    rw [Function.update_of_ne hne]
    apply h.same
    rw [InBuffer]
    omega

theorem bigintSumAux_spec (hus : Digits (fun a => ¬ InBuffer buff size a) mem h1 us)
    (hvs : Digits (fun a => ¬ InBuffer buff size a) mem h2 vs) (hroom : Room mem buff size)
    (hu : ∀ u ∈ us, u < 10) (hv : ∀ v ∈ vs, v < 10) (hlen : us.length = vs.length)
    (hsize : us.length ≤ size) (hfuel : us.length < fuel) :
    ∃ mem' res, bigintSumAux mem buff fuel h1 h2 = some (mem', res) ∧
      Added mem buff mem' res us vs := by
  induction us generalizing h1 h2 vs fuel with
  | nil =>
    cases fuel with
    | zero => exact absurd hfuel (Nat.not_lt_zero _)
    | succ fuel =>
      cases vs with
      | nil =>
        rw [hus.nil, hvs.nil]
        exact ⟨mem, ⟨0, none, 0⟩, rfl, ⟨[], rfl, rfl, by simp⟩, rfl, rfl, fun _ _ => rfl⟩
      | cons v vs => cases hlen
  | cons u us ih =>
    cases fuel with
    | zero => exact absurd hfuel (Nat.not_lt_zero _)
    | succ fuel =>
      cases vs with
      | nil => cases hlen
      | cons v vs =>
        obtain ⟨a, next, rfl, ha, hcell, hrest⟩ := hus.uncons
        obtain ⟨b, next', rfl, hb, hcell', hrest'⟩ := hvs.uncons
        rw [List.forall_mem_cons] at hu hv
        rw [List.length_cons] at hsize hfuel
        obtain ⟨mem', rest, haux, hadded⟩ := ih hrest hrest' hu.2 hv.2 (Nat.succ.inj hlen)
          (by omega) (Nat.lt_of_succ_lt_succ hfuel)
        have hcarry := hadded.carry_le_one hu.2 hv.2
        have hread : mem' a = some ⟨u, next⟩ := by
          rw [hadded.same a fun hin => ha (hin.mono (by omega)), hcell]
        have hread' : mem' b = some ⟨v, next'⟩ := by
          rw [hadded.same b fun hin => hb (hin.mono (by omega)), hcell']
        have hsome : (mem' (buff + rest.buffI)).isSome := by
          rw [hadded.buffI, hadded.same _ not_inBuffer_end]
          exact hroom us.length (by omega)
        have hwrite := setData_setNext hsome ((u + v + rest.carry) % 10 : ℕ) rest.nextHead
        exact ⟨_, _, bigintSumAux_some hcell hcell' haux hread hread' (by omega) (by omega) hwrite,
          hadded.next (Nat.succ.inj hlen) u v⟩

theorem Room.rest (h : Room mem buff size) (hk : k ≤ size) : Room mem (buff + k) (size - k) := by
  intro i hi
  rw [Nat.add_assoc]
  exact h (k + i) (by omega)

theorem inBuffer_of_rest (h : InBuffer (buff + k) v a) (hk : k + v ≤ size) :
    InBuffer buff size a := by
  rw [InBuffer] at h ⊢
  omega

theorem bigintSum_spec (h : Operands mem h1 h2 buff size us vs) (hu : ∀ u ∈ us, u < 10)
    (hv : ∀ v ∈ vs, v < 10)
    (hsize : max us.length vs.length - min us.length vs.length + max us.length vs.length +
      carry 10 0 (columns us.reverse vs.reverse) ≤ size)
    (hfuel : max us.length vs.length < fuel) :
    ∃ mem' head, bigintSum fuel mem h1 h2 buff = some (mem', head) ∧
      Returned mem mem' head buff size (sum 10 (columns us.reverse vs.reverse)).reverse := by
  obtain ⟨mem₁, h1', h2', k, us', vs', hpad, hk, hsame⟩ :=
    padOperands_spec h hu hv hfuel (by omega)
  have hlonger := hsame.longer
  obtain ⟨mem₂, res, haux, hadded⟩ := bigintSumAux_spec hsame.first hsame.second
    (hsame.room.rest (by omega)) hsame.small.1 hsame.small.2 hsame.length (by omega)
    (by omega : us'.length < fuel)
  have hbefore : ∀ a, ¬ InBuffer buff size a → mem₂ a = mem a := by
    intro a ha
    rw [hadded.same a fun hin => ha (inBuffer_of_rest hin (by omega))]
    exact hsame.same a ha
  have hcolumns := hsame.columns
  rw [bigintSum, hpad]
  simp only [Option.bind_eq_bind, Option.bind_some, haux]
  rw [hadded.carry, hadded.buffI, hcolumns]
  have hdigits := hadded.digits
  rw [hcolumns] at hdigits
  by_cases hcarry : carry 10 0 (columns us.reverse vs.reverse) = 0
  · rw [if_neg (not_not.mpr hcarry)]
    refine ⟨mem₂, res.nextHead, rfl, ?_, hbefore⟩
    rw [sum, if_pos hcarry, List.append_nil]
    exact hdigits.weaken fun a ha => inBuffer_of_rest ha (by omega)
  · have hnotin : ¬ InBuffer (buff + k) us'.length (buff + (k + us'.length)) := by
      rw [InBuffer]
      omega
    have hsome : (mem₂ (buff + (k + us'.length))).isSome := by
      rw [hadded.same _ hnotin]
      exact hsame.room _ (by omega)
    have hwrite := setNext_setData hsome (carry 10 0 (columns us.reverse vs.reverse) : ℤ)
      res.nextHead
    rw [if_pos hcarry, ← Option.bind_assoc, hwrite]
    refine ⟨_, _, rfl, ?_, update_same hbefore ?_ _⟩
    · rw [sum, if_neg hcarry, List.reverse_append, List.reverse_singleton, List.singleton_append]
      apply (hdigits.push hnotin _).weaken
      intro a ha
      unfold InBuffer at ha ⊢
      omega
    · rw [InBuffer]
      omega

/-- The sum of two numbers, least significant digit first, is what both find: each in its order, and
in nodes of the buffer, outside which the memory is the same. -/
theorem bigint_sums (hx : ∀ x ∈ xs, x < 10) (hy : ∀ y ∈ ys, y < 10) :
    ∃ ds, (∀ d ∈ ds, d < 10) ∧ Nat.ofDigits 10 ds = Nat.ofDigits 10 xs + Nat.ofDigits 10 ys ∧
      (∀ fuel mem h1 h2 buff size, Operands mem h1 h2 buff size xs ys →
        max xs.length ys.length + 2 ≤ size → max xs.length ys.length < fuel →
          ∃ mem' head, bigintReversedSum fuel mem h1 h2 buff = some (mem', head) ∧
            Returned mem mem' head buff size ds) ∧
      ∀ fuel mem h1 h2 buff size, Operands mem h1 h2 buff size xs.reverse ys.reverse →
        2 * max xs.length ys.length + 1 ≤ size → max xs.length ys.length < fuel →
          ∃ mem' head, bigintSum fuel mem h1 h2 buff = some (mem', head) ∧
            Returned mem mem' head buff size ds.reverse := by
  refine ⟨sum 10 (columns xs ys), ?_, ?_, ?_, ?_⟩
  · exact sum_lt (by decide) (lt_of_mem_columns hx hy)
  · rw [ofDigits_sum, ofDigits_columns]
  · intro fuel mem h1 h2 buff size h hsize hfuel
    exact bigintReversedSum_spec h hx hy hsize hfuel
  · intro fuel mem h1 h2 buff size h hsize hfuel
    have hcarry : carry 10 0 (columns xs ys) ≤ 1 :=
      carry_le_one (lt_of_mem_columns hx hy) (Nat.zero_le 1)
    have hneeded : max xs.length ys.length - min xs.length ys.length + max xs.length ys.length +
        carry 10 0 (columns xs ys) ≤ size := by omega
    have hspec := bigintSum_spec h (fun x hx' => hx x (List.mem_reverse.mp hx'))
      (fun y hy' => hy y (List.mem_reverse.mp hy')) (by simpa using hneeded) (by simpa using hfuel)
    rwa [List.reverse_reverse, List.reverse_reverse] at hspec

/-- Five nodes for the sum, and 617 and 295 behind them. -/
def twoNumbers : Memory := fun a =>
  ([⟨0, none⟩, ⟨0, none⟩, ⟨0, none⟩, ⟨0, none⟩, ⟨0, none⟩, ⟨7, some 6⟩, ⟨1, some 7⟩, ⟨6, none⟩,
    ⟨5, some 9⟩, ⟨9, some 10⟩, ⟨2, none⟩] : List (Cell ℕ ℤ))[a]?

theorem operands_twoNumbers :
    Operands twoNumbers (some 5) (some 8) 0 5 [7, 1, 6] [5, 9, 2] where
  first := ⟨[(5, 7), (6, 1), (7, 6)], by simp [Segment, twoNumbers], rfl, by simp [InBuffer]⟩
  second := ⟨[(8, 5), (9, 9), (10, 2)], by simp [Segment, twoNumbers], rfl, by simp [InBuffer]⟩
  room := by
    intro i hi
    interval_cases i <;> rfl

theorem bigint_sums_twoNumbers :
    ∃ ds, Nat.ofDigits 10 ds = 912 ∧ ∃ mem' head,
      bigintReversedSum 4 twoNumbers (some 5) (some 8) 0 = some (mem', head) ∧
        Returned twoNumbers mem' head 0 5 ds := by
  have hx : ∀ x ∈ [7, 1, 6], x < 10 := by decide
  have hy : ∀ y ∈ [5, 9, 2], y < 10 := by decide
  obtain ⟨ds, -, hvalue, hreversed, -⟩ := bigint_sums hx hy
  exact ⟨ds, hvalue, hreversed 4 _ _ _ 0 5 operands_twoNumbers (by decide) (by decide)⟩

end InterviewQuestions.BigintSum

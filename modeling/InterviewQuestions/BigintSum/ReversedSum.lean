import InterviewQuestions.Library.Arithmetic
import InterviewQuestions.Library.Digits
import InterviewQuestions.Library.LinkedLists

/-! `linked_lists/bigint_sum`: `solution.c` for lists that start with the least significant digit,
`follow_up.c` for the others, where `data` is called `value`. The memory holds a node at every
address that is allocated. There is no result where a pointer has no node, and where a loop has
more than `fuel` iterations or a recursion is deeper than that. -/
namespace InterviewQuestions.BigintSum

open Library LinkedCells

open Arithmetic (int)

abbrev Address := ℕ

abbrev Memory := Address → Option (Cell Address ℤ)

/-- The conversion to `unsigned`. -/
def unsigned (z : ℤ) : ℕ := (z % 2 ^ 32).toNat

/-! ## Least significant digit first -/

/-- What both loops of `bigint_reversed_sum` work on. -/
structure State where
  mem : Memory
  resI : ℕ
  carry : ℕ

/-- `buff[res_i].data = digit; buff[res_i].next = NULL; buff[res_i-1].next = &buff[res_i];` -/
def place (mem : Memory) (buff resI : ℕ) (digit : ℤ) : Option Memory := do
  let mem ← setData mem (buff + resI) digit
  let mem ← setNext mem (buff + resI) none
  setNext mem (buff + (resI - 1)) (some (buff + resI))

/-- The loop as long as both have digits. -/
def sumBoth (buff : Address) :
    ℕ → Option Address → Option Address → State →
      Option (Option Address × Option Address × State)
  | 0, _, _, _ => none
  | _ + 1, none, cursor2, s => some (none, cursor2, s)
  | _ + 1, some cursor1, none, s => some (some cursor1, none, s)
  | fuel + 1, some cursor1, some cursor2, s => do
      let node1 ← s.mem cursor1
      let node2 ← s.mem cursor2
      let value ← int (node1.data + node2.data)
      let mem ← place s.mem buff s.resI (unsigned (value + s.carry) % 10 : ℕ)
      let node1 ← mem cursor1
      let node2 ← mem cursor2
      sumBoth buff fuel node1.next node2.next ⟨mem, s.resI + 1, unsigned (value + s.carry) / 10⟩

/-- The loop over the digits that only one of them has. -/
def sumMissing (buff : Address) : ℕ → Option Address → State → Option State
  | 0, _, _ => none
  | _ + 1, none, s => some s
  | fuel + 1, some missing, s => do
      let node ← s.mem missing
      let mem ← place s.mem buff s.resI (unsigned (node.data + s.carry) % 10 : ℕ)
      let node ← mem missing
      sumMissing buff fuel node.next ⟨mem, s.resI + 1, unsigned (node.data + s.carry) / 10⟩

/-- The memory and the pointer that is returned. -/
def bigintReversedSum (fuel : ℕ) (mem : Memory) (h1 h2 : Option Address) (buff : Address) :
    Option (Memory × Option Address) := do
  let mem ← setNext mem buff none
  let (cursor1, cursor2, s) ← sumBoth buff fuel h1 h2 ⟨mem, 1, 0⟩
  let s ← sumMissing buff fuel (cursor1.or cursor2) s
  let mem ← if s.carry ≠ 0 then place s.mem buff s.resI s.carry else some s.mem
  let node ← mem buff
  return (mem, node.next)

/-! ## Most significant digit first -/

structure ResultWrapper where
  carry : ℕ
  nextHead : Option Address
  buffI : ℕ

def listLength (mem : Memory) : ℕ → Option Address → Option ℕ
  | 0, _ => none
  | _ + 1, none => some 0
  | fuel + 1, some head => do
      let node ← mem head
      let res ← listLength mem fuel node.next
      return res + 1

/-- The memory and the new head. -/
def listPrependZeros (mem : Memory) (head : Option Address) (buff : Address) (zeros : ℕ) :
    Option (Memory × Option Address) :=
  (List.range' 0 zeros).foldlM (fun (mem, head) i => do
    let mem ← setData mem (buff + i) 0
    let mem ← setNext mem (buff + i) head
    return (mem, some (buff + i))) (mem, head)

/-- There is no result where `assert` fails, for lists of different lengths. -/
def bigintSumAux (mem : Memory) (buff : Address) :
    ℕ → Option Address → Option Address → Option (Memory × ResultWrapper)
  | 0, _, _ => none
  | _ + 1, none, none => some (mem, ⟨0, none, 0⟩)
  | fuel + 1, some h1, some h2 => do
      let node1 ← mem h1
      let node2 ← mem h2
      let (mem, rest) ← bigintSumAux mem buff fuel node1.next node2.next
      let node1 ← mem h1
      let node2 ← mem h2
      let sum ← int (node1.data + node2.data)
      let sumValue := Int.bmod (sum + rest.carry) (2 ^ 32)
      let mem ← setData mem (buff + rest.buffI) (sumValue.tmod 10)
      let mem ← setNext mem (buff + rest.buffI) rest.nextHead
      return (mem, ⟨unsigned (sumValue.tdiv 10), some (buff + rest.buffI), rest.buffI + 1⟩)
  | _ + 1, _, _ => none

/-- The zeros that are put in front of the shorter list: the memory, both heads and how many nodes
of the buffer they take. -/
def padOperands (fuel : ℕ) (mem : Memory) (h1 h2 : Option Address) (buff : Address) :
    Option (Memory × Option Address × Option Address × ℕ) := do
  let h1Len ← listLength mem fuel h1
  let h2Len ← listLength mem fuel h2
  if h1Len ≠ h2Len then
    if h1Len < h2Len then do
      let (mem, h1) ← listPrependZeros mem h1 buff (h2Len - h1Len)
      return (mem, h1, h2, h2Len - h1Len)
    else do
      let (mem, h2) ← listPrependZeros mem h2 buff (h1Len - h2Len)
      return (mem, h1, h2, h1Len - h2Len)
  else return (mem, h1, h2, 0)

/-- The memory and the pointer that is returned. -/
def bigintSum (fuel : ℕ) (mem : Memory) (h1 h2 : Option Address) (buff : Address) :
    Option (Memory × Option Address) := do
  let (mem, h1, h2, buffI) ← padOperands fuel mem h1 h2 buff
  let (mem, res) ← bigintSumAux mem (buff + buffI) fuel h1 h2
  if res.carry ≠ 0 then do
    let mem ← setNext mem (buff + (buffI + res.buffI)) res.nextHead
    let mem ← setData mem (buff + (buffI + res.buffI)) res.carry
    return (mem, some (buff + (buffI + res.buffI)))
  else return (mem, res.nextHead)

/-! What `bigint_reversed_sum` has written after each iteration: the digits of the sum so far, one
node of the buffer after the other. -/

open Library LinkedCells CarryChain

variable {mem mem₀ mem' : Memory} {head h1 h2 : Option ℕ} {a b buff size c fuel v : ℕ}
  {ds xs ys : List ℕ} {s : State} {ok : ℕ → Prop}

/-! ## Digits in memory -/

def InBuffer (buff size a : ℕ) : Prop := buff ≤ a ∧ a < buff + size

def Room (mem : Memory) (buff size : ℕ) : Prop := ∀ i < size, (mem (buff + i)).isSome

/-- The list from `head` on holds these digits, and its nodes are `ok`. -/
def Digits (ok : ℕ → Prop) (mem : Memory) (head : Option ℕ) (ds : List ℕ) : Prop :=
  ∃ cells : List (ℕ × ℤ), Holds mem head cells ∧ cells.map Prod.snd = ds.map Nat.cast ∧
    ∀ a ∈ cells.map Prod.fst, ok a

theorem Digits.nil (h : Digits ok mem head []) : head = none := by
  obtain ⟨cells, hholds, hdata, -⟩ := h
  rw [List.map_nil, List.map_eq_nil_iff] at hdata
  rw [hdata] at hholds
  exact hholds

theorem Digits.uncons {d : ℕ} (h : Digits ok mem head (d :: ds)) :
    ∃ a next, head = some a ∧ ok a ∧ mem a = some ⟨d, next⟩ ∧ Digits ok mem next ds := by
  obtain ⟨cells, hholds, hdata, hok⟩ := h
  cases cells with
  | nil => cases hdata
  | cons cell cells =>
    obtain ⟨a, v⟩ := cell
    obtain ⟨hhead, next, hcell, hrest⟩ := hholds
    rw [List.map_cons, List.map_cons, List.cons.injEq] at hdata
    rw [List.map_cons, List.forall_mem_cons] at hok
    refine ⟨a, next, hhead, hok.1, ?_, cells, hrest, hdata.2, hok.2⟩
    rw [hcell, ← hdata.1]

theorem Digits.congr (h : Digits ok mem head ds) (hmem : ∀ a, ok a → mem' a = mem a) :
    Digits ok mem' head ds := by
  obtain ⟨cells, hholds, hdata, hok⟩ := h
  exact ⟨cells, hholds.congr fun a ha => hmem a (hok a ha), hdata, hok⟩

theorem Room.update (h : Room mem buff size) {cell : Cell ℕ ℤ} :
    Room (Function.update mem a (some cell)) buff size := by
  intro i hi
  by_cases ha : buff + i = a
  · rw [ha, Function.update_self]
    rfl
  · rw [Function.update_of_ne ha]
    exact h i hi

theorem unsigned_natCast (h : v < 2 ^ 32) : unsigned v = v := by
  unfold unsigned
  omega

/-! ## The digits in the buffer -/

/-- One value after the other, from the node `a` on. -/
def row : ℕ → List ℤ → List (ℕ × ℤ)
  | _, [] => []
  | a, v :: vs => (a, v) :: row (a + 1) vs

theorem row_snoc (a : ℕ) (vs : List ℤ) (v : ℤ) :
    row a (vs ++ [v]) = row a vs ++ [(a + vs.length, v)] := by
  induction vs generalizing a with
  | nil => rfl
  | cons w vs ih =>
    rw [List.cons_append, row, ih, row, List.length_cons, List.cons_append, Nat.add_right_comm,
      Nat.add_assoc]

theorem map_snd_row (a : ℕ) (vs : List ℤ) : (row a vs).map Prod.snd = vs := by
  induction vs generalizing a with
  | nil => rfl
  | cons v vs ih => rw [row, List.map_cons, ih]

theorem mem_row {vs : List ℤ} (h : b ∈ (row a vs).map Prod.fst) :
    InBuffer a vs.length b := by
  induction vs generalizing a with
  | nil => cases h
  | cons v vs ih =>
    rw [row, List.map_cons, List.mem_cons] at h
    unfold InBuffer at ih ⊢
    rw [List.length_cons]
    rcases h with rfl | h
    · omega
    · have hb := ih h
      omega

/-- The digits so far follow the first node of the buffer, and nothing else has been written to. -/
structure Written (mem₀ mem : Memory) (buff size : ℕ) (ds : List ℕ) : Prop where
  holds : ∃ first : ℤ, Holds mem (some buff) (row buff (first :: ds.map Nat.cast))
  room : Room mem buff size
  same : ∀ a, ¬ InBuffer buff size a → mem a = mem₀ a

theorem update_same (h : ∀ a, ¬ InBuffer buff size a → mem a = mem₀ a) (ha : InBuffer buff size a)
    (cell : Option (Cell ℕ ℤ)) :
    ∀ b, ¬ InBuffer buff size b → Function.update mem a cell b = mem₀ b := by
  intro b hb
  have hne : b ≠ a := by
    rintro rfl
    exact hb ha
  rw [Function.update_of_ne hne]
  exact h b hb

/-- One digit more. -/
theorem Written.place (h : Written mem₀ mem buff size ds) (hroom : ds.length + 1 < size) (d : ℕ) :
    ∃ mem', place mem buff (ds.length + 1) d = some mem' ∧
      Written mem₀ mem' buff size (ds ++ [d]) := by
  obtain ⟨first, hholds⟩ := h.holds
  obtain ⟨vs, last, hvs⟩ : ∃ vs last, first :: ds.map Nat.cast = vs ++ [last] :=
    ⟨_, _, (List.dropLast_append_getLast (List.cons_ne_nil first _)).symm⟩
  have hlen : vs.length = ds.length := by
    have hlength := congrArg List.length hvs
    simpa using hlength.symm
  have hnotmem : buff + (ds.length + 1) ∉ (row buff (vs ++ [last])).map Prod.fst := by
    intro hmem
    have hin := mem_row hmem
    rw [InBuffer, List.length_append, List.length_singleton] at hin
    omega
  have hnotlast : buff + vs.length ∉ (row buff vs).map Prod.fst := by
    intro hmem
    have hin := mem_row hmem
    rw [InBuffer] at hin
    omega
  rw [hvs] at hholds
  have hholds' := hholds.update hnotmem (some ⟨d, none⟩)
  rw [row_snoc] at hholds'
  have hlast := hholds'.last
  have hne : buff + vs.length ≠ buff + (ds.length + 1) := by omega
  have hsnoc := hholds'.snoc hnotlast (Function.update_self ..) hne
  have hwritten := setData_setNext (h.room (ds.length + 1) hroom) (d : ℤ) none
  rw [hlen] at hlast hsnoc
  have hplace : BigintSum.place mem buff (ds.length + 1) d = some (Function.update
      (Function.update mem (buff + (ds.length + 1)) (some ⟨(d : ℤ), none⟩)) (buff + ds.length)
      (some ⟨last, some (buff + (ds.length + 1))⟩)) := by
    rw [BigintSum.place]
    simp only [Option.bind_eq_bind]
    rw [← Option.bind_assoc, hwritten, Option.bind_some, Nat.add_sub_cancel, setNext_eq hlast]
  refine ⟨_, hplace, ⟨first, ?_⟩, h.room.update.update, ?_⟩
  · have hvalues : first :: (ds ++ [d]).map Nat.cast = vs ++ [last] ++ [(d : ℤ)] := by
      rw [← hvs, List.map_append]
      rfl
    rw [hvalues, row_snoc, row_snoc, List.append_assoc, List.length_append, hlen]
    exact hsnoc
  · apply update_same
    · apply update_same h.same
      rw [InBuffer]
      omega
    · rw [InBuffer]
      omega

/-! ## The loops -/

/-- The digits `ds` have been written and `c` is carried. -/
structure Summed (mem₀ : Memory) (buff size : ℕ) (s : State) (ds : List ℕ) (c : ℕ) : Prop where
  written : Written mem₀ s.mem buff size ds
  resI : s.resI = ds.length + 1
  carry : s.carry = c

/-- What one iteration of either loop does with the value `v` of a column. -/
theorem Summed.next (h : Summed mem₀ buff size s ds c) (hroom : ds.length + 1 < size)
    (hv : v + c < 20) :
    ∃ mem', place s.mem buff s.resI (unsigned (v + s.carry) % 10 : ℕ) = some mem' ∧
      Summed mem₀ buff size ⟨mem', s.resI + 1, unsigned (v + s.carry) / 10⟩
        (ds ++ [(v + c) % 10]) ((v + c) / 10) := by
  have hvalue : unsigned (v + s.carry) = v + c := by
    rw [h.carry, ← Nat.cast_add]
    exact unsigned_natCast (by omega)
  rw [hvalue, h.resI]
  obtain ⟨mem', hplace, hwritten⟩ := h.written.place hroom ((v + c) % 10)
  refine ⟨mem', hplace, hwritten, ?_, rfl⟩
  rw [List.length_append, List.length_singleton]

theorem sumMissing_spec (h : Summed mem₀ buff size s ds c)
    (hxs : Digits (fun a => ¬ InBuffer buff size a) mem₀ head xs) (hdigits : ∀ x ∈ xs, x < 10)
    (hc : c ≤ 1) (hroom : ds.length + xs.length < size) (hfuel : xs.length < fuel) :
    ∃ s', sumMissing buff fuel head s = some s' ∧
      Summed mem₀ buff size s' (ds ++ digits 10 c xs) (carry 10 c xs) := by
  induction xs generalizing head fuel s ds c with
  | nil =>
    cases fuel with
    | zero => exact absurd hfuel (Nat.not_lt_zero _)
    | succ fuel =>
      rw [hxs.nil, sumMissing, digits, List.append_nil]
      exact ⟨s, rfl, h⟩
  | cons x xs ih =>
    cases fuel with
    | zero => exact absurd hfuel (Nat.not_lt_zero _)
    | succ fuel =>
      obtain ⟨a, next, rfl, ha, hcell, hrest⟩ := hxs.uncons
      rw [List.forall_mem_cons] at hdigits
      rw [List.length_cons] at hroom hfuel
      obtain ⟨mem', hplace, hnext⟩ := h.next (v := x) (by omega) (by omega)
      have hread : s.mem a = some ⟨x, next⟩ := (h.written.same a ha).trans hcell
      have hread' : mem' a = some ⟨x, next⟩ := (hnext.written.same a ha).trans hcell
      have hcarry : (x + c) / 10 ≤ 1 := by omega
      obtain ⟨s', hloop, hs'⟩ := ih hnext hrest hdigits.2 hcarry
        (by rw [List.length_append, List.length_singleton]; omega) (Nat.lt_of_succ_lt_succ hfuel)
      refine ⟨s', ?_, ?_⟩
      · rw [sumMissing, hread]
        simp only [Option.bind_eq_bind, Option.bind_some, hplace, hread', hloop]
      · rwa [List.append_assoc] at hs'

theorem sumBoth_some {x y value : ℤ} {next next' : Option ℕ} (ha : s.mem a = some ⟨x, next⟩)
    (hb : s.mem b = some ⟨y, next'⟩) (hvalue : int (x + y) = some value)
    (hplace : place s.mem buff s.resI (unsigned (value + s.carry) % 10 : ℕ) = some mem')
    (ha' : mem' a = some ⟨x, next⟩) (hb' : mem' b = some ⟨y, next'⟩) :
    sumBoth buff (fuel + 1) (some a) (some b) s =
      sumBoth buff fuel next next' ⟨mem', s.resI + 1, unsigned (value + s.carry) / 10⟩ := by
  rw [sumBoth, ha, hb]
  simp only [Option.bind_eq_bind, Option.bind_some]
  rw [hvalue, Option.bind_some, hplace, Option.bind_some, ha', Option.bind_some, hb',
    Option.bind_some]

/-- Both loops, one after the other. -/
theorem sumBoth_spec (h : Summed mem₀ buff size s ds c)
    (hxs : Digits (fun a => ¬ InBuffer buff size a) mem₀ h1 xs)
    (hys : Digits (fun a => ¬ InBuffer buff size a) mem₀ h2 ys) (hx : ∀ x ∈ xs, x < 10)
    (hy : ∀ y ∈ ys, y < 10) (hc : c ≤ 1) (hroom : ds.length + max xs.length ys.length < size)
    (hfuel : max xs.length ys.length < fuel) {fuel' : ℕ}
    (hfuel' : max xs.length ys.length < fuel') :
    ∃ cursor1 cursor2 s', sumBoth buff fuel h1 h2 s = some (cursor1, cursor2, s') ∧
      ∃ s'', sumMissing buff fuel' (cursor1.or cursor2) s' = some s'' ∧
        Summed mem₀ buff size s'' (ds ++ digits 10 c (columns xs ys))
          (carry 10 c (columns xs ys)) := by
  induction xs generalizing h1 h2 ys fuel s ds c with
  | nil =>
    cases fuel with
    | zero => exact absurd hfuel (Nat.not_lt_zero _)
    | succ fuel =>
      rw [List.length_nil, Nat.zero_max] at hroom hfuel'
      obtain ⟨s', hloop, hs'⟩ := sumMissing_spec h hys hy hc hroom hfuel'
      rw [hxs.nil, sumBoth]
      exact ⟨none, h2, s, rfl, s', hloop, hs'⟩
  | cons x xs ih =>
    cases fuel with
    | zero => exact absurd hfuel (Nat.not_lt_zero _)
    | succ fuel =>
      cases ys with
      | nil =>
        obtain ⟨a, next, rfl, -⟩ := hxs.uncons
        rw [List.length_nil, Nat.max_zero] at hroom hfuel'
        obtain ⟨s', hloop, hs'⟩ := sumMissing_spec h hxs hx hc hroom hfuel'
        rw [hys.nil, sumBoth]
        exact ⟨some a, none, s, rfl, s', hloop, hs'⟩
      | cons y ys =>
        obtain ⟨a, next, rfl, ha, hcell, hrest⟩ := hxs.uncons
        obtain ⟨b, next', rfl, hb, hcell', hrest'⟩ := hys.uncons
        rw [List.forall_mem_cons] at hx hy
        rw [List.length_cons, List.length_cons] at hroom hfuel hfuel'
        have hvalue : int ((x : ℤ) + y) = some ((x + y : ℕ) : ℤ) := by
          rw [Nat.cast_add, int, if_pos]
          omega
        obtain ⟨mem', hplace, hnext⟩ := h.next (v := x + y) (by omega) (by omega)
        have hsum : (x + y + c) / 10 ≤ 1 := by omega
        have hloop : max xs.length ys.length < fuel := by omega
        obtain ⟨cursor1, cursor2, s', hboth, hs'⟩ := ih hnext hrest hrest' hx.2 hy.2 hsum
          (by rw [List.length_append, List.length_singleton]; omega) hloop (by omega)
        have hread : s.mem a = some ⟨x, next⟩ := (h.written.same a ha).trans hcell
        have hread' : s.mem b = some ⟨y, next'⟩ := (h.written.same b hb).trans hcell'
        refine ⟨cursor1, cursor2, s', ?_, ?_⟩
        · rw [sumBoth_some hread hread' hvalue hplace ((hnext.written.same a ha).trans hcell)
            ((hnext.written.same b hb).trans hcell'), hboth]
        · rw [List.append_assoc, List.singleton_append] at hs'
          rw [columns, digits, carry]
          exact hs'

/-! ## The sum -/

/-- The two operands, none of whose nodes is in the buffer, and their digits. -/
structure Operands (mem : Memory) (h1 h2 : Option ℕ) (buff size : ℕ) (xs ys : List ℕ) : Prop where
  first : Digits (fun a => ¬ InBuffer buff size a) mem h1 xs
  second : Digits (fun a => ¬ InBuffer buff size a) mem h2 ys
  room : Room mem buff size

/-- Digits that are all in the buffer, outside which the memory is the same. -/
structure Returned (mem₀ mem : Memory) (head : Option ℕ) (buff size : ℕ) (ds : List ℕ) :
    Prop where
  digits : Digits (InBuffer buff size) mem head ds
  same : ∀ a, ¬ InBuffer buff size a → mem a = mem₀ a

theorem Written.returned (h : Written mem₀ mem buff size ds) (hroom : ds.length < size) :
    ∃ node, mem buff = some node ∧ Returned mem₀ mem node.next buff size ds := by
  obtain ⟨first, -, next, hcell, hrest⟩ := h.holds
  refine ⟨_, hcell, ⟨_, hrest, map_snd_row _ _, fun a ha => ?_⟩, h.same⟩
  have hin := mem_row ha
  rw [InBuffer, List.length_map] at hin
  rw [InBuffer]
  omega

theorem bigintReversedSum_spec (h : Operands mem h1 h2 buff size xs ys) (hx : ∀ x ∈ xs, x < 10)
    (hy : ∀ y ∈ ys, y < 10) (hsize : max xs.length ys.length + 2 ≤ size)
    (hfuel : max xs.length ys.length < fuel) :
    ∃ mem' head, bigintReversedSum fuel mem h1 h2 buff = some (mem', head) ∧
      Returned mem mem' head buff size (sum 10 (columns xs ys)) := by
  obtain ⟨node, hnode⟩ := Option.isSome_iff_exists.mp (h.room 0 (by omega))
  have hfirst : setNext mem buff none = some (Function.update mem buff (some ⟨node.data, none⟩)) :=
    setNext_eq hnode none
  have hstart : Summed mem buff size
      ⟨Function.update mem buff (some ⟨node.data, none⟩), 1, 0⟩ [] 0 := by
    refine ⟨⟨⟨node.data, rfl, none, Function.update_self .., rfl⟩, h.room.update, ?_⟩, rfl, rfl⟩
    apply update_same fun _ _ => rfl
    rw [InBuffer]
    omega
  obtain ⟨cursor1, cursor2, s, hboth, s', hmissing, hs'⟩ := sumBoth_spec hstart h.first h.second
    hx hy (Nat.zero_le 1) (by rw [List.length_nil]; omega) hfuel hfuel
  have hlength : ([] ++ digits 10 0 (columns xs ys)).length = max xs.length ys.length := by
    rw [List.nil_append, length_digits, length_columns]
  rw [bigintReversedSum, hfirst]
  simp only [Option.bind_eq_bind, Option.bind_some, hboth, hmissing]
  rw [hs'.carry]
  by_cases hcarry : carry 10 0 (columns xs ys) = 0
  · obtain ⟨node', hnode', hreturned⟩ := hs'.written.returned (by omega)
    rw [if_neg (not_not.mpr hcarry), hnode']
    refine ⟨_, _, rfl, ?_⟩
    rwa [sum, if_pos hcarry, List.append_nil]
  · obtain ⟨mem', hplace, hwritten⟩ := hs'.written.place (by omega) (carry 10 0 (columns xs ys))
    obtain ⟨node', hnode', hreturned⟩ := hwritten.returned
      (by rw [List.length_append, List.length_singleton]; omega)
    rw [if_pos hcarry, hs'.resI, hplace, Option.bind_some, hnode']
    refine ⟨_, _, rfl, ?_⟩
    rwa [sum, if_neg hcarry]

end InterviewQuestions.BigintSum

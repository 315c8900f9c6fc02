import InterviewQuestions.Library.Arithmetic
import InterviewQuestions.Library.CString
import InterviewQuestions.Library.Rearrangement
import Mathlib.Data.List.Perm.Subperm

/-! The two versions of `recursion_dp/target_number`. There is no result where a value is no `int`,
where `assert` fails, beyond the end of an array, and where a loop has more than `fuel`
iterations. -/
namespace InterviewQuestions.TargetNumber

open Library Library.Arithmetic Scanf

/-! ## `solution.c` -/

namespace Recursive

/-- The buffer and the lines printed so far. -/
structure State where
  buff : List UInt8
  printed : List (List UInt8)

/-- `sprintf` of the text from the place `start` of the buffer on. -/
def sprintf (text : List UInt8) (start : ℕ) (buff : List UInt8) : Option (List UInt8) :=
  if start + text.length + 1 ≤ buff.length then
    some (buff.take start ++ text ++ 0 :: buff.drop (start + text.length + 1))
  else none

/-- `printf("%s%d\n", buff, number)` -/
def State.print (s : State) (number : ℤ) : Option State :=
  if 0 ∈ s.buff then
    some { s with
      printed := s.printed ++ [(CString.ofBuffer s.buff).bytes ++ printInt number ++ [10]] }
  else none

/-- The numbers are those from `numbers[i]` on. -/
def targetNAux (target : ℤ) : List ℤ → ℤ → ℕ → State → Option (UInt32 × State)
  | [], _, _, _ => none
  | [number], resSoFar, _, s =>
      if resSoFar = target then (s.print number).map fun s => (1, s) else some (0, s)
  | number :: next :: rest, resSoFar, buffI, s => do
      let buff ← sprintf (printInt number ++ [43]) buffI s.buff
      let buffI := buffI + (printInt number ++ [43]).length
      let sum ← int (resSoFar + next)
      let (res, s) ← targetNAux target (next :: rest) sum buffI { s with buff := buff }
      let s := { s with buff := s.buff.set (buffI - 1) 45 }
      let diff ← int (resSoFar - next)
      let (res', s) ← targetNAux target (next :: rest) diff buffI s
      return (res + res', s)

/-- The lines printed, and the count. -/
def targetN (numbers : List ℤ) (target : ℤ) : Option (List (List UInt8) × UInt32) :=
  match numbers with
  | [] => some ([], 0)
  | number :: _ =>
      let buff := List.replicate (numbers.length * 32) 0
      (targetNAux target numbers number 0 ⟨buff, []⟩).map fun (res, s) => (s.printed, res)

end Recursive

/-! ## `solution_iterative.c` -/

namespace Iterative

/-- The loop of `eval`, with the operators and the numbers after them that are left. -/
def evalLoop : ℤ → List UInt8 → List ℤ → Option ℤ
  | res, [], _ => some res
  | _, _ :: _, [] => none
  | res, op :: ops, number :: numbers => do
      let res ← if op = 43 then int (res + number) else if op = 45 then int (res - number) else none
      evalLoop res ops numbers

def eval (numbers : List ℤ) (ops : List UInt8) : Option ℤ :=
  match numbers with
  | [] => none
  | number :: numbers => evalLoop number ops numbers

/-- The loop, at index `i - 1`. -/
def nextOpsLoop : ℕ → List UInt8 → List UInt8 × Bool
  | 0, ops => (ops, false)
  | i + 1, ops =>
      if ops.getD i 0 = 45 then nextOpsLoop i (ops.set i 43) else (ops.set i 45, true)

/-- The index is an `int`; the next operators, and whether there are any. -/
def nextOps (ops : List UInt8) : List UInt8 × Bool :=
  nextOpsLoop (((ops.length : ℤ) - 1).bmod (2 ^ 32) + 1).toNat ops

/-- The line that `print_solution` writes. -/
def printSolution (numbers : List ℤ) (ops : List UInt8) : List UInt8 :=
  printInt (numbers.headD 0) ++
    (ops.zip numbers.tail).flatMap (fun pair => pair.1 :: printInt pair.2) ++ [10]

/-- The lines printed so far, and the count. -/
abbrev Found := List (List UInt8) × UInt32

/-- What is done with the operators, before the loop and in it. -/
def attempt (numbers : List ℤ) (target : ℤ) (ops : List UInt8) (found : Found) : Option Found := do
  let value ← eval numbers ops
  if value = target then return (found.1 ++ [printSolution numbers ops], found.2 + 1)
  else return found

def search (numbers : List ℤ) (target : ℤ) : ℕ → List UInt8 → Found → Option Found
  | 0, _, _ => none
  | fuel + 1, ops, found =>
      match nextOps ops with
      | (_, false) => some found
      | (ops, true) => do
          let found ← attempt numbers target ops found
          search numbers target fuel ops found

def targetN (fuel : ℕ) (numbers : List ℤ) (target : ℤ) : Option Found :=
  if numbers.length = 0 then some ([], 0)
  else do
    let ops := List.replicate (numbers.length - 1) 43
    let found ← attempt numbers target ops ([], 0)
    search numbers target fuel ops found

end Iterative

/-! Both versions go through the operators in the same order, but the second one only as far as
an index is an `int`. -/

open Library Library.Arithmetic Scanf Iterative

/-! ## Ways -/

/-- All choices of `n` operators, in the order in which they are tried. -/
def allOps : ℕ → List (List UInt8)
  | 0 => [[]]
  | n + 1 => (allOps n).map (43 :: ·) ++ (allOps n).map (45 :: ·)

/-- What the operators make of the numbers, from `res` on. -/
def total : ℤ → List UInt8 → List ℤ → ℤ
  | res, [], _ => res
  | res, _ :: _, [] => res
  | res, op :: ops, number :: numbers =>
      total (if op = 43 then res + number else res - number) ops numbers

/-- All sums on the way are `int`s. -/
def SumsFit (res : ℤ) (numbers : List ℤ) : Prop :=
  ∀ k ≤ numbers.length, ∀ ops ∈ allOps k, -2 ^ 31 ≤ total res ops numbers ∧
    total res ops numbers < 2 ^ 31

/-- The operators after which `res` has become the target. -/
def ways (target res : ℤ) (numbers : List ℤ) : List (List UInt8) :=
  (allOps numbers.length).filter fun ops => total res ops numbers = target

variable {target res number next : ℤ} {numbers : List ℤ} {ops front back : List UInt8} {k n : ℕ}

theorem length_allOps (n : ℕ) : (allOps n).length = 2 ^ n := by
  induction n with
  | zero => rfl
  | succ n ih =>
    rw [allOps, List.length_append, List.length_map, List.length_map, ih]
    omega

theorem mem_allOps : ops ∈ allOps n ↔ ops.length = n ∧ ∀ op ∈ ops, op = 43 ∨ op = 45 := by
  induction n generalizing ops with
  | zero =>
    rw [allOps, List.mem_singleton]
    constructor
    · rintro rfl
      exact ⟨rfl, fun op hop => by cases hop⟩
    · rintro ⟨hlen, -⟩
      exact List.length_eq_zero_iff.mp hlen
  | succ n ih =>
    simp only [allOps, List.mem_append, List.mem_map]
    constructor
    · rintro (⟨ops, hops, rfl⟩ | ⟨ops, hops, rfl⟩)
      · simpa using ih.mp hops
      · simpa using ih.mp hops
    · rintro ⟨hlen, hall⟩
      cases ops with
      | nil => cases hlen
      | cons op ops =>
        have hrest := ih.mpr ⟨Nat.succ.inj hlen, fun op hop => hall op (List.mem_cons_of_mem _ hop)⟩
        rcases hall op List.mem_cons_self with rfl | rfl
        · exact .inl ⟨ops, hrest, rfl⟩
        · exact .inr ⟨ops, hrest, rfl⟩

theorem nodup_allOps (n : ℕ) : (allOps n).Nodup := by
  induction n with
  | zero => exact List.nodup_singleton _
  | succ n ih =>
    have hcons (op : UInt8) : ((allOps n).map (op :: ·)).Nodup :=
      ih.map fun _ _ heq => (List.cons.inj heq).2
    refine List.nodup_append.mpr ⟨hcons 43, hcons 45, ?_⟩
    rintro _ hleft _ hright rfl
    obtain ⟨ops, -, rfl⟩ := List.mem_map.mp hleft
    obtain ⟨ops', -, heq⟩ := List.mem_map.mp hright
    exact absurd (List.cons.inj heq).1 (by decide)

/-- The first of all choices. -/
theorem allOps_eq_cons (n : ℕ) : allOps n = List.replicate n 43 :: (allOps n).tail := by
  induction n with
  | zero => rfl
  | succ n ih =>
    rw [allOps, ih]
    rfl

theorem replicate_mem_allOps (n : ℕ) : List.replicate n 45 ∈ allOps n :=
  mem_allOps.mpr ⟨List.length_replicate, fun _ hop => .inr (List.eq_of_mem_replicate hop)⟩

theorem SumsFit.add (h : SumsFit res (number :: numbers)) : SumsFit (res + number) numbers := by
  intro k hk ops hops
  exact h (k + 1) (Nat.succ_le_succ hk) (43 :: ops)
    (List.mem_append_left _ (List.mem_map_of_mem hops))

theorem SumsFit.sub (h : SumsFit res (number :: numbers)) : SumsFit (res - number) numbers := by
  intro k hk ops hops
  exact h (k + 1) (Nat.succ_le_succ hk) (45 :: ops)
    (List.mem_append_right _ (List.mem_map_of_mem hops))

theorem SumsFit.int (h : SumsFit res numbers) : int res = some res :=
  int_eq_some.mpr ⟨rfl, h 0 (Nat.zero_le _) [] List.mem_cons_self⟩

/-- Between its sum and its difference there is room for twice the number. -/
theorem SumsFit.natAbs_le (h : SumsFit res (number :: numbers)) : number.natAbs ≤ 2 ^ 31 := by
  have hsum := (int_eq_some.mp h.add.int).2
  have hdiff := (int_eq_some.mp h.sub.int).2
  omega

theorem ways_cons (target res number : ℤ) (numbers : List ℤ) :
    ways target res (number :: numbers) =
      (ways target (res + number) numbers).map (43 :: ·) ++
        (ways target (res - number) numbers).map (45 :: ·) := by
  unfold ways
  rw [List.length_cons, allOps, List.filter_append, List.filter_map, List.filter_map]
  rfl

/-! ## The recursion -/

namespace Recursive

/-- The line for a way. -/
def line (number : ℤ) (numbers : List ℤ) (ops : List UInt8) : List UInt8 :=
  printSolution (number :: numbers) ops

theorem line_cons (number next : ℤ) (numbers : List ℤ) (op : UInt8) (ops : List UInt8) :
    line number (next :: numbers) (op :: ops) =
      printInt number ++ [op] ++ line next numbers ops := by
  simp [line, printSolution]

theorem sprintf_append (text : List UInt8) (front : List UInt8) {back : List UInt8}
    (hroom : text.length + 1 ≤ back.length) :
    sprintf text front.length (front ++ back) =
      some (front ++ text ++ 0 :: back.drop (text.length + 1)) := by
  unfold sprintf
  rw [if_pos (by rw [List.length_append]; omega), List.take_left, Nat.add_assoc,
    List.drop_append]
  simp

theorem length_text (hnumber : number.natAbs ≤ 2 ^ 31) : (printInt number ++ [43]).length < 31 := by
  have hle := length_printInt_le (show 0 < 10 by decide) (show number.natAbs < 10 ^ 10 by omega)
  rw [List.length_append, List.length_singleton]
  omega

/-- The sign after the number is replaced. -/
theorem set_sign (front text back : List UInt8) :
    (front ++ (text ++ [43]) ++ back).set ((front ++ (text ++ [43])).length - 1) 45 =
      front ++ (text ++ [45]) ++ back := by
  have hset := set_append_cons (front ++ text) 43 45 back
  have hlen : (front ++ (text ++ [43])).length - 1 = (front ++ text).length := by
    simp only [List.length_append, List.length_singleton]
    omega
  rw [hlen]
  simp only [List.append_assoc, List.singleton_append] at hset ⊢
  exact hset

/-- One number is left: it is printed if the sum is right. -/
theorem targetNAux_last (target res : ℤ) (front rest : List UInt8) (hnul : 0 ∉ front)
    (printed : List (List UInt8)) :
    targetNAux target [number] res front.length ⟨front ++ 0 :: rest, printed⟩ =
      some (UInt32.ofNat (ways target res []).length, ⟨front ++ 0 :: rest,
        printed ++ (ways target res []).map fun ops => front ++ line number [] ops⟩) := by
  rw [targetNAux]
  by_cases heq : res = target
  · have hways : ways target res [] = [[]] := by simp [ways, allOps, total, heq]
    have hprint : State.print ⟨front ++ 0 :: rest, printed⟩ number =
        some ⟨front ++ 0 :: rest, printed ++ [front ++ printInt number ++ [10]]⟩ := by
      rw [State.print, if_pos (by simp), CString.bytes_ofBuffer hnul]
    rw [if_pos heq, hprint, hways]
    simp [line, printSolution]
  · have hways : ways target res [] = [] := by simp [ways, allOps, total, heq]
    rw [if_neg heq, hways]
    simp

/-- The part of the buffer before `buffI` is kept, and the rest after the last number. -/
theorem targetNAux_eq (target : ℤ) (front back : List UInt8) (hsums : SumsFit res numbers)
    (hnumber : number.natAbs ≤ 2 ^ 31) (hnul : 0 ∉ front)
    (hroom : 32 * (numbers.length + 1) ≤ back.length)
    (hlast : numbers = [] → ∃ rest, back = 0 :: rest) (printed : List (List UInt8)) :
    ∃ back', targetNAux target (number :: numbers) res front.length ⟨front ++ back, printed⟩ =
        some (UInt32.ofNat (ways target res numbers).length, ⟨front ++ back',
          printed ++ (ways target res numbers).map fun ops => front ++ line number numbers ops⟩) ∧
      back'.length = back.length ∧ (numbers = [] → back' = back) := by
  induction numbers generalizing number res front back printed with
  | nil =>
    obtain ⟨rest, rfl⟩ := hlast rfl
    exact ⟨0 :: rest, targetNAux_last target res front rest hnul printed, rfl, fun _ => rfl⟩
  | cons next numbers ih =>
    have htext := length_text hnumber
    rw [List.length_cons] at hroom
    obtain ⟨back₁, hplus, hlen₁, hkept⟩ := ih (front ++ (printInt number ++ [43]))
      (0 :: back.drop ((printInt number ++ [43]).length + 1)) hsums.add hsums.natAbs_le
      (by simp [hnul, zero_not_mem_printInt])
      (by rw [List.length_cons, List.length_drop]; omega) (fun _ => ⟨_, rfl⟩) printed
    have hlen : back₁.length + (printInt number ++ [43]).length = back.length := by
      rw [hlen₁, List.length_cons, List.length_drop]
      omega
    obtain ⟨back₂, hminus, hlen₂, -⟩ := ih (front ++ (printInt number ++ [45])) back₁
      hsums.sub hsums.natAbs_le (by simp [hnul, zero_not_mem_printInt]) (by omega)
      (fun hnil => ⟨_, hkept hnil⟩) (printed ++ (ways target (res + next) numbers).map
        fun ops => front ++ (printInt number ++ [43]) ++ line next numbers ops)
    refine ⟨printInt number ++ [45] ++ back₂, ?_, ?_, fun hnil => by cases hnil⟩
    · have hbuffI : front.length + (printInt number ++ [43]).length =
          (front ++ (printInt number ++ [43])).length := List.length_append.symm
      have hsame : (front ++ (printInt number ++ [43])).length =
          (front ++ (printInt number ++ [45])).length := by simp
      rw [targetNAux, sprintf_append _ front (by omega)]
      simp only [Option.bind_eq_bind, Option.bind_some, hsums.add.int, hsums.sub.int, hbuffI]
      rw [hplus]
      simp only [Option.bind_some, set_sign]
      rw [hsame, hminus]
      simp only [Option.bind_some, ways_cons, List.length_append, List.length_map, UInt32.ofNat_add,
        List.map_append, List.map_map, List.append_assoc]
      have hline (op : UInt8) : (fun ops => front ++ (printInt number ++ ([op] ++
          line next numbers ops))) = (fun ops => front ++ line number (next :: numbers) ops) ∘
            (op :: ·) := by
        funext ops
        simp only [Function.comp_apply, line_cons, List.append_assoc]
      rw [hline 43, hline 45]
      rfl
    · rw [List.length_append, hlen₂, ← hlen]
      simp [Nat.add_comm]

theorem targetN_eq (hsums : SumsFit number numbers) (target : ℤ) :
    targetN (number :: numbers) target =
      some ((ways target number numbers).map (line number numbers),
        UInt32.ofNat (ways target number numbers).length) := by
  have hnumber : number.natAbs ≤ 2 ^ 31 := by
    have hfirst := (int_eq_some.mp hsums.int).2
    omega
  obtain ⟨back, hcall, -⟩ := targetNAux_eq target []
    (List.replicate ((number :: numbers).length * 32) 0) hsums hnumber List.not_mem_nil
    (by rw [List.length_replicate, List.length_cons]; omega)
    (fun hnil => ⟨List.replicate 31 0, by rw [hnil]; rfl⟩) []
  change ((targetNAux target (number :: numbers) number 0 _).map _) = _
  simp only [List.length_nil, List.nil_append] at hcall
  rw [hcall]
  rfl

end Recursive

/-! ## The iteration -/

namespace Iterative

/-- What the lines printed and the count have become after some choices. -/
def tally (numbers : List ℤ) (target : ℤ) (found : Found) (choices : List (List UInt8)) : Found :=
  let hits := choices.filter fun ops => total (numbers.headD 0) ops numbers.tail = target
  (found.1 ++ hits.map (printSolution numbers), found.2 + UInt32.ofNat hits.length)

theorem tally_append (found : Found) (c c' : List (List UInt8)) :
    tally numbers target found (c ++ c') =
      tally numbers target (tally numbers target found c) c' := by
  unfold tally
  simp only [List.filter_append, List.map_append, List.length_append, UInt32.ofNat_add,
    List.append_assoc, UInt32.add_assoc]

theorem evalLoop_eq (hsums : SumsFit res numbers) (hops : ops ∈ allOps numbers.length) :
    evalLoop res ops numbers = some (total res ops numbers) := by
  induction numbers generalizing res ops with
  | nil =>
    rw [List.length_nil, allOps, List.mem_singleton] at hops
    subst hops
    rfl
  | cons number numbers ih =>
    rcases List.mem_append.mp hops with hmem | hmem
    · obtain ⟨rest, hrest, rfl⟩ := List.mem_map.mp hmem
      rw [evalLoop, if_pos rfl, hsums.add.int]
      exact ih hsums.add hrest
    · obtain ⟨rest, hrest, rfl⟩ := List.mem_map.mp hmem
      rw [evalLoop, if_neg (by decide), if_pos rfl, hsums.sub.int]
      exact ih hsums.sub hrest

theorem attempt_eq (target : ℤ) (hsums : SumsFit number numbers)
    (hops : ops ∈ allOps numbers.length) (found : Found) :
    attempt (number :: numbers) target ops found =
      some (tally (number :: numbers) target found [ops]) := by
  unfold attempt eval tally
  simp only [evalLoop_eq hsums hops, List.headD_cons, List.tail_cons, Option.bind_eq_bind,
    Option.bind_some, List.filter_singleton]
  by_cases heq : total number ops numbers = target
  · simp [heq]
  · simp [heq]

/-- Operators that are `-` start again. -/
theorem nextOpsLoop_minus (front back : List UInt8) (k : ℕ) :
    nextOpsLoop (front.length + k) (front ++ (List.replicate k 45 ++ back)) =
      nextOpsLoop front.length (front ++ (List.replicate k 43 ++ back)) := by
  induction k generalizing back with
  | zero => rfl
  | succ k ih =>
    have hsplit (op : UInt8) : front ++ (List.replicate (k + 1) op ++ back) =
        (front ++ List.replicate k op) ++ op :: back := by
      rw [List.replicate_succ']
      simp
    have hindex (op : UInt8) : front.length + k = (front ++ List.replicate k op).length := by simp
    have hget : (front ++ (List.replicate (k + 1) 45 ++ back)).getD (front.length + k) 0 = 45 := by
      rw [hsplit, hindex 45, List.getD_eq_getElem?_getD, getElem?_append_cons]
      rfl
    rw [← Nat.add_assoc, nextOpsLoop, if_pos hget, hsplit, hindex 45, set_append_cons, ← hindex,
      List.append_assoc, ih, hsplit 43, List.append_assoc]

theorem nextOpsLoop_plus (front back : List UInt8) :
    nextOpsLoop (front.length + 1) (front ++ 43 :: back) = (front ++ 45 :: back, true) := by
  have hget : (front ++ 43 :: back).getD front.length 0 = 43 := by
    rw [List.getD_eq_getElem?_getD, getElem?_append_cons]
    rfl
  rw [nextOpsLoop, hget, if_neg (by decide), set_append_cons]

/-- How many of the operators the index goes to. -/
def reached (n : ℕ) : ℕ := (((n : ℤ) - 1).bmod (2 ^ 32) + 1).toNat

theorem search_block (target : ℤ) (hsums : SumsFit number numbers) (front back : List UInt8) (k : ℕ)
    (hreached : reached numbers.length = front.length + k)
    (hmem : ∀ c ∈ allOps k, front ++ (c ++ back) ∈ allOps numbers.length) (found : Found)
    (fuel : ℕ) :
    search (number :: numbers) target (fuel + (2 ^ k - 1))
        (front ++ (List.replicate k 43 ++ back)) found =
      search (number :: numbers) target fuel (front ++ (List.replicate k 45 ++ back))
        (tally (number :: numbers) target found
          ((allOps k).tail.map fun c => front ++ (c ++ back))) := by
  induction k generalizing front found fuel with
  | zero => simp [tally, allOps]
  | succ k ih =>
    have hsplit (op op' : UInt8) : front ++ (op :: List.replicate k op' ++ back) =
        (front ++ [op]) ++ (List.replicate k op' ++ back) := by simp
    have hhalf (op : UInt8) (hop : op = 43 ∨ op = 45) :
        ∀ c ∈ allOps k, (front ++ [op]) ++ (c ++ back) ∈ allOps numbers.length := by
      intro c hc
      have hcons : op :: c ∈ allOps (k + 1) := by
        rcases hop with rfl | rfl
        · exact List.mem_append_left _ (List.mem_map_of_mem hc)
        · exact List.mem_append_right _ (List.mem_map_of_mem hc)
      simpa using hmem _ hcons
    have hindex (op : UInt8) : reached numbers.length = (front ++ [op]).length + k := by
      rw [hreached, List.length_append, List.length_singleton]
      omega
    have hfuel : fuel + (2 ^ (k + 1) - 1) = fuel + (2 ^ k - 1) + 1 + (2 ^ k - 1) := by
      have hpos : 0 < 2 ^ k := Nat.two_pow_pos k
      rw [pow_succ]
      omega
    have hnext : nextOps ((front ++ [43]) ++ (List.replicate k 45 ++ back)) =
        ((front ++ [45]) ++ (List.replicate k 43 ++ back), true) := by
      have hlast := hhalf 43 (.inl rfl) (List.replicate k 45) (replicate_mem_allOps k)
      have hlen := (mem_allOps.mp hlast).1
      change nextOpsLoop (reached _) _ = _
      rw [hlen, hindex 43, nextOpsLoop_minus, List.length_append, List.length_singleton,
        List.append_assoc, List.singleton_append, nextOpsLoop_plus]
      simp
    have hfirst := hhalf 45 (.inr rfl) (List.replicate k 43) (by rw [allOps_eq_cons]; exact .head _)
    rw [hfuel, List.replicate_succ, hsplit, ih _ (hindex 43) (hhalf 43 (.inl rfl)), search, hnext]
    simp only [attempt_eq target hsums hfirst, Option.bind_eq_bind, Option.bind_some]
    rw [ih _ (hindex 45) (hhalf 45 (.inr rfl)), ← tally_append, ← tally_append,
      List.replicate_succ, hsplit]
    have hrest : allOps (k + 1) = (List.replicate k 43 :: (allOps k).tail).map (43 :: ·) ++
        (List.replicate k 43 :: (allOps k).tail).map (45 :: ·) := by
      rw [← allOps_eq_cons]
      rfl
    rw [hrest]
    simp [Function.comp_def]

theorem reached_le (n : ℕ) : reached n ≤ n := by
  unfold reached
  cases n with
  | zero => decide
  | succ n =>
    have hmod := Nat.mod_le n (2 ^ 32)
    rw [Nat.cast_succ, Int.add_sub_cancel]
    rcases bmod_cases n with ⟨-, heq⟩ | ⟨-, heq⟩ <;> omega

theorem reached_eq (h : n ≤ 2 ^ 31) : reached n = n := by
  unfold reached
  cases n with
  | zero => rfl
  | succ n =>
    have hmod := Nat.mod_eq_of_lt (show n < 2 ^ 32 by omega)
    rw [Nat.cast_succ, Int.add_sub_cancel]
    rcases bmod_cases n with ⟨-, heq⟩ | ⟨hlarge, -⟩ <;> omega

/-- The choices that are tried: the operators that are not reached stay as they are. -/
def visited (n : ℕ) : List (List UInt8) :=
  (allOps (reached n)).map (· ++ List.replicate (n - reached n) 43)

theorem append_mem_allOps (h : ops ∈ allOps (reached n)) :
    ops ++ List.replicate (n - reached n) 43 ∈ allOps n := by
  have hle := reached_le n
  obtain ⟨hlen, hall⟩ := mem_allOps.mp h
  refine mem_allOps.mpr ⟨by rw [List.length_append, List.length_replicate]; omega, ?_⟩
  intro op hop
  rcases List.mem_append.mp hop with hop | hop
  · exact hall op hop
  · exact .inl (List.eq_of_mem_replicate hop)

/-- After the last choice the loop ends. -/
theorem search_last (numbers : List ℤ) (target : ℤ) (fuel n : ℕ) (found : Found) :
    search numbers target (fuel + 1)
      (List.replicate (reached n) 45 ++ List.replicate (n - reached n) 43) found = some found := by
  have hlen : (List.replicate (reached n) (45 : UInt8) ++
      List.replicate (n - reached n) 43).length = n := by
    have hle := reached_le n
    rw [List.length_append, List.length_replicate, List.length_replicate]
    omega
  have hminus := nextOpsLoop_minus [] (List.replicate (n - reached n) 43) (reached n)
  rw [List.length_nil, Nat.zero_add, List.nil_append, List.nil_append] at hminus
  rw [search, nextOps, hlen, ← reached, hminus]
  rfl

theorem targetN_eq (hsums : SumsFit number numbers) (target : ℤ) {fuel : ℕ}
    (hfuel : 2 ^ numbers.length < fuel) :
    targetN fuel (number :: numbers) target =
      some (tally (number :: numbers) target ([], 0) (visited numbers.length)) := by
  have hle := reached_le numbers.length
  have hpow := Nat.pow_le_pow_right (show 0 < 2 by decide) hle
  have hpos := Nat.two_pow_pos (reached numbers.length)
  obtain ⟨rest, hrest⟩ := Nat.exists_eq_add_of_le (show 2 ^ reached numbers.length ≤ fuel by omega)
  have hfuel' : fuel = rest + 1 + (2 ^ reached numbers.length - 1) := by omega
  have hstart : List.replicate numbers.length (43 : UInt8) =
      [] ++ (List.replicate (reached numbers.length) 43 ++
        List.replicate (numbers.length - reached numbers.length) 43) := by
    rw [List.nil_append, List.replicate_append_replicate, Nat.add_sub_cancel' hle]
  have hfirst : List.replicate numbers.length 43 ∈ allOps numbers.length := by
    rw [allOps_eq_cons]
    exact List.mem_cons_self
  have hattempt := attempt_eq target hsums hfirst ([], 0)
  have hblock := search_block target hsums []
    (List.replicate (numbers.length - reached numbers.length) 43) (reached numbers.length)
    (by simp) (fun c hc => append_mem_allOps hc)
    (tally (number :: numbers) target ([], 0) [List.replicate numbers.length 43]) (rest + 1)
  rw [List.nil_append (List.replicate (reached numbers.length) 45 ++ _), search_last,
    ← tally_append, ← hstart, ← hfuel'] at hblock
  have hvisited : visited numbers.length = [List.replicate numbers.length 43] ++
      (allOps (reached numbers.length)).tail.map fun c =>
        [] ++ (c ++ List.replicate (numbers.length - reached numbers.length) 43) := by
    rw [visited, allOps_eq_cons]
    rw [hstart]
    rfl
  unfold targetN
  rw [if_neg (by simp), hvisited, ← hblock]
  exact congrArg (Option.bind · _) hattempt

end Iterative

end InterviewQuestions.TargetNumber

/-! The two versions agree on the number of ways when an `unsigned` can count them and the second
version reaches all of them. -/
namespace InterviewQuestions.TargetNumber

open Library Library.Arithmetic Iterative

variable {target number : ℤ} {numbers : List ℤ} {ops : List UInt8} {n : ℕ}

/-- The ways that the second version finds. -/
def found (target number : ℤ) (numbers : List ℤ) : List (List UInt8) :=
  (visited numbers.length).filter fun ops => total number ops numbers = target

theorem visited_sublist (n : ℕ) : (visited n).Sublist (allOps n) := by
  have hpad (k r : ℕ) : ((allOps k).map (· ++ List.replicate r 43)).Sublist (allOps (k + r)) := by
    induction k with
    | zero =>
      rw [Nat.zero_add, allOps_eq_cons r]
      exact List.singleton_sublist.mpr List.mem_cons_self
    | succ k ih =>
      have hcons (op : UInt8) : ((allOps k).map (op :: ·)).map (· ++ List.replicate r 43) =
          ((allOps k).map (· ++ List.replicate r 43)).map (op :: ·) := by
        simp [Function.comp_def]
      rw [Nat.succ_add, allOps, allOps, List.map_append, hcons, hcons]
      exact (ih.map _).append (ih.map _)
  have hle := reached_le n
  have hsub := hpad (reached n) (n - reached n)
  rwa [Nat.add_sub_cancel' hle] at hsub

theorem mem_visited : ops ∈ visited n ↔ ops ∈ allOps n ∧ ∀ op ∈ ops.drop (reached n), op = 43 := by
  constructor
  · intro h
    refine ⟨(visited_sublist n).subset h, ?_⟩
    obtain ⟨ops, hops, rfl⟩ := List.mem_map.mp h
    rw [← (mem_allOps.mp hops).1, List.drop_left]
    exact fun op hop => List.eq_of_mem_replicate hop
  · rintro ⟨hops, hrest⟩
    obtain ⟨hlen, hall⟩ := mem_allOps.mp hops
    have hle := reached_le n
    refine List.mem_map.mpr ⟨ops.take (reached n), ?_, ?_⟩
    · refine mem_allOps.mpr ⟨by rw [List.length_take]; omega, ?_⟩
      exact fun op hop => hall op (List.mem_of_mem_take hop)
    · have htail : ops.drop (reached n) = List.replicate (n - reached n) 43 :=
        List.eq_replicate_iff.mpr ⟨by rw [List.length_drop, hlen], hrest⟩
      rw [← htail, List.take_append_drop]

theorem found_sublist (target number : ℤ) (numbers : List ℤ) :
    (found target number numbers).Sublist (ways target number numbers) :=
  (visited_sublist numbers.length).filter _

/-- Both versions print the same lines and return the same count, that of the ways. -/
def Agree (target number : ℤ) (numbers : List ℤ) : Prop :=
  ∃ printed count, Recursive.targetN (number :: numbers) target = some (printed, count) ∧
    (∀ fuel > 2 ^ numbers.length,
      Iterative.targetN fuel (number :: numbers) target = some (printed, count)) ∧
    count.toNat = (ways target number numbers).length

/-- The ways can be counted, and have no `-` beyond the operators whose index is an `int`. -/
structure Manageable (target number : ℤ) (numbers : List ℤ) : Prop where
  countable : (ways target number numbers).length < 2 ^ 32
  reach : numbers.length ≤ 2 ^ 31 ∨
    ∀ ops ∈ ways target number numbers, ∀ op ∈ ops.drop (reached numbers.length), op = 43

theorem found_eq_ways_iff : found target number numbers = ways target number numbers ↔
    numbers.length ≤ 2 ^ 31 ∨
      ∀ ops ∈ ways target number numbers, ∀ op ∈ ops.drop (reached numbers.length), op = 43 := by
  constructor
  · intro heq
    refine .inr fun ops hops => ?_
    rw [← heq] at hops
    exact (mem_visited.mp (List.mem_filter.mp hops).1).2
  · intro hreach
    refine (found_sublist target number numbers).eq_of_length_le ?_
    apply ((nodup_allOps numbers.length).filter _).length_le_of_subset
    intro ops hops
    obtain ⟨hmem, htotal⟩ := List.mem_filter.mp hops
    refine List.mem_filter.mpr ⟨mem_visited.mpr ⟨hmem, ?_⟩, htotal⟩
    rcases hreach with hlen | hreach
    · rw [reached_eq hlen, List.drop_of_length_le (mem_allOps.mp hmem).1.le]
      exact fun op hop => by cases hop
    · exact hreach ops hops

theorem target_n_iff (target : ℤ) (hsums : SumsFit number numbers) :
    Agree target number numbers ↔ Manageable target number numbers := by
  have hiterative (fuel : ℕ) (hfuel : 2 ^ numbers.length < fuel) :
      Iterative.targetN fuel (number :: numbers) target =
        some ((found target number numbers).map (Recursive.line number numbers),
          UInt32.ofNat (found target number numbers).length) := by
    rw [Iterative.targetN_eq hsums target hfuel]
    simp [tally, found, Recursive.line]
  constructor
  · rintro ⟨printed, count, hrec, hiter, hcount⟩
    rw [Recursive.targetN_eq hsums] at hrec
    have hlines := (hiter _ (Nat.lt_succ_self _)).symm.trans (hiterative _ (Nat.lt_succ_self _))
    cases hrec
    have hlength := congrArg List.length (Prod.mk.inj (Option.some.inj hlines)).1
    rw [List.length_map, List.length_map] at hlength
    have hall := (found_sublist target number numbers).eq_of_length hlength.symm
    exact ⟨hcount ▸ UInt32.toNat_lt _, found_eq_ways_iff.mp hall⟩
  · rintro ⟨hcount, hreach⟩
    have heq := found_eq_ways_iff.mpr hreach
    refine ⟨_, _, Recursive.targetN_eq hsums target, fun fuel hfuel => ?_, ?_⟩
    · rw [hiterative fuel hfuel, heq]
    · exact UInt32.toNat_ofNat_of_lt' hcount

/-- The numbers 1 9 1 2 and the target 9. -/
theorem target_n_iff_four :
    SumsFit 1 [9, 1, 2] ∧ Manageable 9 1 [9, 1, 2] ∧ Agree 9 1 [9, 1, 2] := by
  have hsums : SumsFit 1 [9, 1, 2] := by
    unfold SumsFit
    decide
  have hmanageable : Manageable 9 1 [9, 1, 2] := ⟨by decide, .inl (by decide)⟩
  exact ⟨hsums, hmanageable, (target_n_iff 9 hsums).mpr hmanageable⟩

theorem total_zeros (ops : List UInt8) (n : ℕ) : total 0 ops (List.replicate n 0) = 0 := by
  induction ops generalizing n with
  | nil => rfl
  | cons op ops ih =>
    cases n with
    | zero => rfl
    | succ n =>
      rw [List.replicate_succ, total, add_zero, sub_zero, ite_self]
      exact ih n

/-- The target 0 and 33 zeros: all choices are ways. -/
theorem not_agree_zeros : SumsFit 0 (List.replicate 32 0) ∧ ¬ Agree 0 0 (List.replicate 32 0) := by
  have hways : ways 0 0 (List.replicate 32 0) = allOps 32 := by
    rw [ways, List.length_replicate]
    exact List.filter_eq_self.mpr fun ops _ => decide_eq_true (total_zeros ops 32)
  refine ⟨fun k _ ops _ => ?_, ?_⟩
  · rw [total_zeros]
    decide
  · rintro ⟨printed, count, -, -, hcount⟩
    rw [hways, length_allOps] at hcount
    have hlt := UInt32.toNat_lt count
    omega

end InterviewQuestions.TargetNumber

import InterviewQuestions.Library.Descent
import InterviewQuestions.Library.MixedRadix

/-! `magic_numbers` of `recursion_dp/magic_numbers/solution_followup.c`. There is no result when
`assert` or `sscanf` fails, when a division is by zero and when a value is no `int`. -/
namespace InterviewQuestions.MagicNumbers

open Library

def expr (exprStr : List UInt8) : ℕ → ℕ → Option (ℤ × ℕ) :=
  Descent.expr Descent.evaluator exprStr

def exprR (exprStr : List UInt8) : ℕ → ℕ → ℤ → Option (ℤ × ℕ) :=
  Descent.exprR Descent.evaluator exprStr

def term (exprStr : List UInt8) : ℕ → ℕ → Option (ℤ × ℕ) :=
  Descent.term Descent.evaluator exprStr

def termR (exprStr : List UInt8) : ℕ → ℕ → ℤ → Option (ℤ × ℕ) :=
  Descent.termR Descent.evaluator exprStr

def factor (exprStr : List UInt8) : ℕ → ℕ → Option (ℤ × ℕ) :=
  Descent.factor Descent.evaluator exprStr

def initPossibilities (n : ℕ) : List ℕ := List.replicate n 1

/-- The next values, and whether there are any. -/
def nextPossibility (arr : List ℕ) : List ℕ × Bool :=
  loop arr.length arr
where
  /-- The loop, at index `i - 1`. -/
  loop : ℕ → List ℕ → List ℕ × Bool
    | 0, arr => (arr, false)
    | i + 1, arr =>
        if arr.getD i 0 = 9 then loop i (arr.set i 1) else (arr.set i (arr.getD i 0 + 1), true)

/-- The part before the `=`, with the values in the blanks. -/
def generate : List UInt8 → List ℕ → List UInt8
  | [], _ => []
  | c :: rest, vars =>
      if c = 61 then []
      else if c = 95 then UInt8.ofNat (vars.headD 0 + 48) :: generate rest vars.tail
      else c :: generate rest vars

def evalExpr (exprStr : List UInt8) (vars : List ℕ) (target : ℤ) : Option Bool :=
  let generated := generate exprStr vars
  (expr generated (4 * generated.length + 4) 0).map fun res => res.1 = target

/-- The line that `print_solution` writes. -/
def printSolution (exprStr : List UInt8) (vars : List ℕ) : List UInt8 :=
  generate exprStr vars ++ exprStr.dropWhile (· ≠ 61) ++ [10]

/-- The lines printed so far, and `matches`. -/
structure Found where
  printed : List (List UInt8)
  count : UInt32
deriving DecidableEq

/-- The loop over the other possibilities. -/
def search (exprStr : List UInt8) (target : ℤ) : ℕ → List ℕ → Found → Option Found
  | 0, _, _ => none
  | fuel + 1, vars, found =>
      match nextPossibility vars with
      | (_, false) => some found
      | (vars, true) =>
          (evalExpr exprStr vars target).bind fun hit =>
            if hit then
              search exprStr target fuel vars
                ⟨found.printed ++ [printSolution exprStr vars], found.count + 1⟩
            else search exprStr target fuel vars found

/-- `none` also when there is no integer after the `=`. -/
def magicNumbers (exprStr : List UInt8) : Option Found :=
  let varsSz := (exprStr.takeWhile (· ≠ 61)).count 95
  (Descent.readInt (exprStr.dropWhile (· ≠ 61)).tail).bind fun read =>
    let target := read.1
    if varsSz = 0 then
      (evalExpr exprStr [] target).map fun hit =>
        if hit then ⟨[printSolution exprStr []], 1⟩ else ⟨[], 0⟩
    else
      let vars := initPossibilities varsSz
      (evalExpr exprStr vars target).bind fun hit =>
        let printed := if hit then [printSolution exprStr vars] else []
        search exprStr target (9 ^ varsSz) vars ⟨printed, 0⟩

/-! Which assignments `magic_numbers` prints, and what it returns. The first assignment is not
counted. -/

open Library Arithmetic Odometer

/-! ## The possibilities -/

/-- Digits at their highest start again. -/
theorem loop_highs (front : List ℕ) (k j : ℕ) :
    nextPossibility.loop (front.length + k)
        (front ++ (List.replicate k 9 ++ List.replicate j 1)) =
      nextPossibility.loop front.length (front ++ List.replicate (k + j) 1) := by
  induction k generalizing j with
  | zero => simp
  | succ k ih =>
    have hsplit : front ++ (List.replicate (k + 1) 9 ++ List.replicate j 1) =
        (front ++ List.replicate k 9) ++ 9 :: List.replicate j 1 := by
      rw [List.replicate_succ']
      simp
    have hindex : front.length + k = (front ++ List.replicate k 9).length := by simp
    have hnext : (front ++ List.replicate k 9) ++ 1 :: List.replicate j 1 =
        front ++ (List.replicate k 9 ++ List.replicate (j + 1) 1) := by
      rw [List.replicate_succ, List.append_assoc]
    rw [← Nat.add_assoc, nextPossibility.loop, hsplit, hindex]
    simp only [List.getD_eq_getElem?_getD, List.getElem?_append_right (Nat.le_refl _),
      Nat.sub_self, List.getElem?_cons_zero, Option.getD_some, if_true,
      List.set_append_right _ _ (Nat.le_refl _), List.set_cons_zero]
    rw [hnext, ← hindex, ih, Nat.add_right_comm, Nat.add_assoc]

theorem nextPossibility_last (n : ℕ) : (nextPossibility (List.replicate n 9)).2 = false := by
  have hloop := loop_highs [] n 0
  simp only [List.length_nil, Nat.zero_add, List.nil_append, List.replicate_zero,
    List.append_nil] at hloop
  rw [nextPossibility, List.length_replicate, hloop, nextPossibility.loop]

theorem nextPossibility_turn {vars next : List ℕ} (h : Turn 1 9 vars next) :
    nextPossibility vars = (next, true) := by
  obtain ⟨front, d, k, rfl, hd, rfl⟩ := h
  have hloop := loop_highs (front ++ [d]) k 0
  have hlength : (front ++ d :: List.replicate k 9).length = (front ++ [d]).length + k := by
    simp
    omega
  simp only [List.replicate_zero, List.append_nil, List.append_assoc, List.singleton_append,
    Nat.add_zero] at hloop
  rw [nextPossibility, hlength, hloop, List.length_append, List.length_singleton,
    nextPossibility.loop]
  simp only [List.getD_eq_getElem?_getD, List.getElem?_append_right (Nat.le_refl _),
    Nat.sub_self, List.getElem?_cons_zero, Option.getD_some, if_neg (Nat.ne_of_lt hd),
    List.set_append_right _ _ (Nat.le_refl _), List.set_cons_zero]

/-! ## The search -/

section Search

variable {exprStr : List UInt8} {target : ℤ} {n : ℕ} {vars : List ℕ} {visited : List (List ℕ)}

/-- The later possibilities that are hits. -/
def hits (exprStr : List UInt8) (target : ℤ) (possibilities : List (List ℕ)) : List (List ℕ) :=
  possibilities.filter fun vars => evalExpr exprStr vars target = some true

theorem hits_cons (p : List ℕ) (ps : List (List ℕ)) : hits exprStr target (p :: ps) =
    if evalExpr exprStr p target = some true then p :: hits exprStr target ps
    else hits exprStr target ps := by
  rw [hits, List.filter_cons, hits]
  simp only [decide_eq_true_eq]

theorem search_turn {next : List ℕ} (h : Turn 1 9 vars next) (fuel : ℕ) (found : Found) :
    search exprStr target (fuel + 1) vars found =
      (evalExpr exprStr next target).bind fun hit =>
        if hit then search exprStr target fuel next
            ⟨found.printed ++ [printSolution exprStr next], found.count + 1⟩
        else search exprStr target fuel next found := by
  rw [search, nextPossibility_turn h]

theorem search_spec (h : Passes 1 9 n vars visited) {fuel : ℕ} (hfuel : visited.length ≤ fuel)
    (heval : ∀ p ∈ visited.tail, evalExpr exprStr p target ≠ none) (found : Found) :
    search exprStr target fuel vars found =
      some ⟨found.printed ++ (hits exprStr target visited.tail).map (printSolution exprStr),
        found.count + UInt32.ofNat (hits exprStr target visited.tail).length⟩ := by
  induction h generalizing fuel found with
  | last =>
    cases fuel with
    | zero => cases hfuel
    | succ fuel =>
      have hlast := nextPossibility_last n
      have hnone : hits exprStr target [] = [] := rfl
      cases hnext : nextPossibility (List.replicate n 9) with
      | mk arr more =>
        rw [hnext] at hlast
        simp only at hlast
        rw [search, hnext, hlast]
        simp [hnone]
  | @turn vars next visited hturn hrest ih =>
    cases fuel with
    | zero => cases hfuel
    | succ fuel =>
      have hcons := hrest.cons
      rw [List.tail_cons] at heval ⊢
      rw [hcons] at heval
      rw [search_turn hturn, hcons, hits_cons]
      have hlater := ih (Nat.le_of_succ_le_succ hfuel)
        fun p hp => heval p (List.mem_cons_of_mem next hp)
      cases hhit : evalExpr exprStr next target with
      | none => exact absurd hhit (heval next List.mem_cons_self)
      | some hit =>
        cases hit with
        | true =>
          simp only [Option.bind_some, if_true, hlater, List.map_cons, List.length_cons,
            UInt32.ofNat_add, List.append_assoc, List.singleton_append]
          rw [UInt32.add_assoc, UInt32.add_comm 1]
          rfl
        | false =>
          rw [Option.bind_some, if_neg (by decide), if_neg (by decide)]
          exact hlater found

/-- Every possibility is evaluated. -/
theorem search_none (h : Passes 1 9 n vars visited) {fuel : ℕ}
    (heval : ∃ p ∈ visited.tail, evalExpr exprStr p target = none) (found : Found) :
    search exprStr target fuel vars found = none := by
  induction h generalizing fuel found with
  | last =>
    obtain ⟨p, hp, _⟩ := heval
    cases hp
  | @turn vars next visited hturn hrest ih =>
    cases fuel with
    | zero => rfl
    | succ fuel =>
      obtain ⟨p, hp, hnone⟩ := heval
      rw [search_turn hturn]
      rw [List.tail_cons, hrest.cons, List.mem_cons] at hp
      cases hhit : evalExpr exprStr next target with
      | none => rfl
      | some hit =>
        rcases hp with rfl | hlater
        · rw [hnone] at hhit
          cases hhit
        · simp only [Option.bind_some, ih ⟨p, hlater, hnone⟩, ite_self]

end Search

/-! ## Patterns -/

/-- An assignment in the blanks. -/
def fill : List UInt8 → List ℕ → List UInt8
  | [], _ => []
  | c :: rest, vars =>
      if c = 95 then UInt8.ofNat (vars.headD 0 + 48) :: fill rest vars.tail
      else c :: fill rest vars

/-- Digits, blanks, operators and parentheses, and at least one blank. -/
structure Pattern (left : List UInt8) : Prop where
  chars : ∀ c ∈ left, Scanf.isdigit c = true ∨ c = 95 ∨ c = 40 ∨ c = 41 ∨ ∃ op : Op, c = op.char
  blank : 95 ∈ left

/-- A digit from 1 to 9 for each blank. -/
def Assignment (left : List UInt8) (vars : List ℕ) : Prop := Position 1 9 (left.count 95) vars

/-- With the assignment, the left side is an expression that has this value. -/
def HasValue (left : List UInt8) (vars : List ℕ) (z : ℤ) : Prop :=
  ∃ e : Written, e.Fits IsSigned 0 ∧ e.text = fill left vars ∧
    e.exactValue = some z

/-- With the assignment, all values on the way are `int`s. -/
def IntValued (left : List UInt8) (vars : List ℕ) : Prop :=
  ∃ e : Written, e.Fits IsSigned 0 ∧ e.text = fill left vars ∧
    e.intValue ≠ none

section Equation

variable {left numeral : List UInt8} {vars : List ℕ} {z target : ℤ}

theorem Pattern.notMem (h : Pattern left) : 61 ∉ left := by
  intro hmem
  rcases h.chars 61 hmem with hdigit | heq | heq | heq | ⟨op, heq⟩
  · cases hdigit
  · cases heq
  · cases heq
  · cases heq
  · cases op <;> cases heq

theorem generate_append (hleft : 61 ∉ left) (rest : List UInt8) (vars : List ℕ) :
    generate (left ++ 61 :: rest) vars = fill left vars := by
  induction left generalizing vars with
  | nil => rfl
  | cons c left ih =>
    rw [List.mem_cons, not_or] at hleft
    rw [List.cons_append, generate, fill, if_neg (Ne.symm hleft.1), ih hleft.2, ih hleft.2]

theorem split_equation (hleft : 61 ∉ left) (rest : List UInt8) :
    (left ++ 61 :: rest).takeWhile (· ≠ 61) = left ∧
      (left ++ 61 :: rest).dropWhile (· ≠ 61) = 61 :: rest := by
  apply Scanf.takeWhile_append_stop
  · intro b hb
    rw [decide_eq_true_eq]
    rintro rfl
    exact hleft hb
  · intro b hb
    cases hb
    decide

theorem printSolution_append (hleft : 61 ∉ left) (rest : List UInt8) (vars : List ℕ) :
    printSolution (left ++ 61 :: rest) vars = fill left vars ++ 61 :: rest ++ [10] := by
  rw [printSolution, generate_append hleft, (split_equation hleft rest).2]

theorem readInt_numeral (hnumeral : IsSigned numeral) (hz : Written.exactLiteral numeral = some z) :
    Descent.readInt numeral = (int z).map fun v => (v, numeral.length) := by
  have hread := Descent.evaluator_reads.number numeral [] hnumeral Scanf.isdigit_head_nil
  rw [Written.exactLiteral, Option.map_eq_some_iff] at hz
  obtain ⟨found, hfound, rfl⟩ := hz
  rw [List.append_nil] at hread
  change Descent.readInt numeral = _ at hread
  rw [hread, Written.intLiteral, hfound, Option.bind_some]
  cases int found.1 <;> rfl

theorem evalExpr_eq {e : Written} (hleft : 61 ∉ left) (rest : List UInt8)
    (hfits : e.Fits IsSigned 0) (htext : e.text = fill left vars) :
    evalExpr (left ++ 61 :: rest) vars target =
      e.intValue.map fun v => decide (v = target) := by
  rw [evalExpr, generate_append hleft, ← htext, expr]
  simp only [Descent.expr_evaluator hfits (Nat.le_refl _), Option.map_map]
  rfl

theorem evalExpr_ne_none (hleft : 61 ∉ left) (rest : List UInt8)
    (hvalue : ∃ v, HasValue left vars v) :
    evalExpr (left ++ 61 :: rest) vars target ≠ none ↔ IntValued left vars := by
  obtain ⟨v, e, hfits, htext, _⟩ := hvalue
  rw [evalExpr_eq hleft rest hfits htext, Ne, Option.map_eq_none_iff]
  constructor
  · intro hne
    exact ⟨e, hfits, htext, hne⟩
  · rintro ⟨e', hfits', htext', hne⟩
    rwa [Descent.text_injective hfits hfits' (htext.trans htext'.symm)]

theorem evalExpr_hit (hleft : 61 ∉ left) (rest : List UInt8) (hints : IntValued left vars) :
    evalExpr (left ++ 61 :: rest) vars target = some true ↔ HasValue left vars target := by
  obtain ⟨e, hfits, htext, hne⟩ := hints
  obtain ⟨v, hv⟩ := Option.ne_none_iff_exists'.mp hne
  rw [evalExpr_eq hleft rest hfits htext, hv, Option.map_some, Option.some.injEq,
    decide_eq_true_eq]
  constructor
  · rintro rfl
    exact ⟨e, hfits, htext, Written.exactValue_of_intValue hv⟩
  · rintro ⟨e', hfits', htext', hv'⟩
    rw [← Descent.text_injective hfits hfits' (htext.trans htext'.symm),
      Written.exactValue_of_intValue hv] at hv'
    exact Option.some.inj hv'

/-! ## What is printed and returned -/

/-- The lines are those of the assignments that solve the equation, each once, and the number
is theirs. -/
def PrintsSolutions (left numeral : List UInt8) (z : ℤ) (found : Found) : Prop :=
  ∃ solutions : List (List ℕ),
    found.printed = solutions.map (fun vars => fill left vars ++ 61 :: numeral ++ [10]) ∧
    solutions.Nodup ∧
    (∀ vars, vars ∈ solutions ↔ Assignment left vars ∧ HasValue left vars z) ∧
    found.count.toNat = solutions.length

/-- No more distinct solutions than an `unsigned` can count. -/
def Countable (left : List UInt8) (z : ℤ) : Prop :=
  ∀ solutions : List (List ℕ), solutions.Nodup →
    (∀ vars ∈ solutions, Assignment left vars ∧ HasValue left vars z) → solutions.length < 2 ^ 32

/-- 1 in all blanks, which is tried first. -/
def ones (left : List UInt8) : List ℕ := initPossibilities (left.count 95)

theorem magicNumbers_eq (hpattern : Pattern left) (hnumeral : IsSigned numeral)
    (hz : Written.exactLiteral numeral = some z) : magicNumbers (left ++ 61 :: numeral) =
      (int z).bind fun target =>
        (evalExpr (left ++ 61 :: numeral) (ones left) target).bind fun hit =>
          search (left ++ 61 :: numeral) target (9 ^ left.count 95) (ones left)
            ⟨if hit then [printSolution (left ++ 61 :: numeral) (ones left)] else [], 0⟩ := by
  obtain ⟨htake, hdrop⟩ := split_equation hpattern.notMem numeral
  have hblank : left.count 95 ≠ 0 := fun h => List.count_eq_zero.mp h hpattern.blank
  rw [magicNumbers, htake, hdrop, List.tail_cons, readInt_numeral hnumeral hz]
  simp only [if_neg hblank]
  cases int z <;> rfl

/-- All assignments, in the order in which they are tried. -/
structure InOrder (left : List UInt8) (later : List (List ℕ)) : Prop where
  passes : Passes 1 9 (left.count 95) (ones left) (ones left :: later)
  length : later.length < 9 ^ left.count 95
  nodup : (ones left :: later).Nodup
  mem : ∀ vars, vars ∈ ones left :: later ↔ Assignment left vars

theorem exists_inOrder (left : List UInt8) : ∃ later, InOrder left later := by
  have hfirst : Position 1 9 (left.count 95) (ones left) := by
    constructor
    · exact List.length_replicate
    · intro d hd
      rw [List.eq_of_mem_replicate hd]
      decide
  obtain ⟨visited, hpasses, hlength⟩ := exists_passes (by decide) hfirst
  obtain ⟨hnodup, hmem⟩ := hpasses.spec (by decide) hfirst
  have hrank : rank 1 9 (ones left) = 0 := rank_lows _
  have hbase : 9 + 1 - 1 = 9 := rfl
  have hcons := hpasses.cons
  rw [hcons] at hpasses hnodup hlength
  rw [hcons, hrank] at hmem
  rw [hrank, hbase, List.length_cons] at hlength
  simp only [Nat.zero_le, and_true] at hmem
  exact ⟨visited.tail, hpasses, by omega, hnodup, hmem⟩

/-- A result takes an `int` after the `=`, and every assignment evaluated with `int`s. -/
theorem InOrder.intValued {later : List (List ℕ)} (h : InOrder left later)
    (hpattern : Pattern left) (hnumeral : IsSigned numeral)
    (hz : Written.exactLiteral numeral = some z)
    (hvalue : ∀ vars, Assignment left vars → ∃ v, HasValue left vars v) {found : Found}
    (hfound : magicNumbers (left ++ 61 :: numeral) = some found) :
    int z = some z ∧ ∀ vars, Assignment left vars → IntValued left vars := by
  rw [magicNumbers_eq hpattern hnumeral hz] at hfound
  obtain ⟨target, htarget, hrest⟩ := Option.bind_eq_some_iff.mp hfound
  obtain ⟨hit, hhit, hsearch⟩ := Option.bind_eq_some_iff.mp hrest
  constructor
  · rw [htarget, (int_eq_some.mp htarget).1]
  · intro vars hvars
    have hdefined : evalExpr (left ++ 61 :: numeral) vars target ≠ none := by
      intro hnone
      rcases List.mem_cons.mp ((h.mem vars).mpr hvars) with rfl | hin
      · rw [hhit] at hnone
        cases hnone
      · rw [search_none h.passes ⟨vars, hin, hnone⟩] at hsearch
        cases hsearch
    exact (evalExpr_ne_none hpattern.notMem numeral (hvalue vars hvars)).mp hdefined

/-- Then all hits are printed, and all but the first assignment are counted. -/
theorem InOrder.magicNumbers {later : List (List ℕ)} (h : InOrder left later)
    (hpattern : Pattern left) (hnumeral : IsSigned numeral)
    (hz : Written.exactLiteral numeral = some z)
    (hvalue : ∀ vars, Assignment left vars → ∃ v, HasValue left vars v)
    (hint : int z = some z) (hints : ∀ vars, Assignment left vars → IntValued left vars) :
    MagicNumbers.magicNumbers (left ++ 61 :: numeral) =
      some ⟨(hits (left ++ 61 :: numeral) z (ones left :: later)).map
          (printSolution (left ++ 61 :: numeral)),
        UInt32.ofNat (hits (left ++ 61 :: numeral) z later).length⟩ := by
  have hdefined : ∀ vars ∈ ones left :: later,
      evalExpr (left ++ 61 :: numeral) vars z ≠ none := by
    intro vars hin
    have hvars := (h.mem vars).mp hin
    exact (evalExpr_ne_none hpattern.notMem numeral (hvalue vars hvars)).mpr (hints vars hvars)
  obtain ⟨hit, hhit⟩ := Option.ne_none_iff_exists'.mp (hdefined _ List.mem_cons_self)
  have hsearch := search_spec h.passes h.length
    fun p hp => hdefined p (List.mem_cons_of_mem (ones left) hp)
  rw [List.tail_cons] at hsearch
  rw [magicNumbers_eq hpattern hnumeral hz, hint, Option.bind_some, hhit, Option.bind_some,
    hsearch, hits_cons, hhit, UInt32.zero_add]
  cases hit <;> simp

/-- The hits are the solutions. -/
theorem InOrder.mem_hits {later : List (List ℕ)} (h : InOrder left later)
    (hpattern : Pattern left) (hints : ∀ vars, Assignment left vars → IntValued left vars)
    (numeral : List UInt8) (z : ℤ) (vars : List ℕ) :
    vars ∈ hits (left ++ 61 :: numeral) z (ones left :: later) ↔
      Assignment left vars ∧ HasValue left vars z := by
  rw [hits, List.mem_filter, h.mem, decide_eq_true_eq]
  exact and_congr_right fun hvars => evalExpr_hit hpattern.notMem numeral (hints vars hvars)

/-- All solutions are printed and counted exactly if all values are `int`s, 1 in all blanks
is no solution, and the number of solutions fits. -/
theorem magic_numbers_iff (hpattern : Pattern left) (hnumeral : IsSigned numeral)
    (hz : Written.exactLiteral numeral = some z)
    (hvalue : ∀ vars, Assignment left vars → ∃ v, HasValue left vars v) :
    (∃ found, MagicNumbers.magicNumbers (left ++ 61 :: numeral) = some found ∧
      PrintsSolutions left numeral z found) ↔
    (int z = some z ∧ ∀ vars, Assignment left vars → IntValued left vars) ∧
      ¬ HasValue left (ones left) z ∧ Countable left z := by
  obtain ⟨later, h⟩ := exists_inOrder left
  have hones : Assignment left (ones left) := (h.mem _).mp List.mem_cons_self
  have hdistinct : (hits (left ++ 61 :: numeral) z (ones left :: later)).Nodup := h.nodup.filter _
  constructor
  · rintro ⟨found, hfound, solutions, hprinted, hsolutions, hall, hcount⟩
    have hints := h.intValued hpattern hnumeral hz hvalue hfound
    have hmem := h.mem_hits hpattern hints.2 numeral z
    rw [h.magicNumbers hpattern hnumeral hz hvalue hints.1 hints.2, Option.some.injEq] at hfound
    have hperm : solutions.Perm (hits (left ++ 61 :: numeral) z (ones left :: later)) :=
      (List.perm_ext_iff_of_nodup hsolutions hdistinct).mpr fun vars => (hall vars).trans
        (hmem vars).symm
    rw [← hfound] at hcount
    simp only [hperm.length_eq] at hcount
    have hmod := UInt32.toNat_ofNat' (n := (hits (left ++ 61 :: numeral) z later).length)
    refine ⟨hints, ?_, ?_⟩
    · intro hfirst
      have hhit := (evalExpr_hit hpattern.notMem numeral (hints.2 _ hones)).mpr hfirst
      rw [hits_cons, if_pos hhit, List.length_cons, hmod] at hcount
      have hle := Nat.mod_le (hits (left ++ 61 :: numeral) z later).length (2 ^ 32)
      omega
    · intro others hothers hsolve
      have hsub : others.Subperm (hits (left ++ 61 :: numeral) z (ones left :: later)) :=
        hothers.subperm fun vars hin => (hmem vars).mpr (hsolve vars hin)
      have hlt := UInt32.toNat_lt (UInt32.ofNat (hits (left ++ 61 :: numeral) z later).length)
      have hle := hsub.length_le
      omega
  · rintro ⟨hints, hfirst, hfew⟩
    have hmem := h.mem_hits hpattern hints.2 numeral z
    refine ⟨_, h.magicNumbers hpattern hnumeral hz hvalue hints.1 hints.2, _, ?_, hdistinct, hmem,
      ?_⟩
    · exact List.map_congr_left fun vars _ => printSolution_append hpattern.notMem numeral vars
    · have hmiss := (evalExpr_hit hpattern.notMem numeral (hints.2 _ hones)).not.mpr hfirst
      have hlt := hfew _ hdistinct fun vars hin => (hmem vars).mp hin
      rw [hits_cons, if_neg hmiss] at hlt ⊢
      exact UInt32.toNat_ofNat_of_lt' hlt

end Equation

theorem pattern_blank : Pattern [95] where
  chars _ hc := Or.inr (Or.inl (List.mem_singleton.mp hc))
  blank := List.mem_singleton_self 95

/-- A single blank has the value that is assigned to it. -/
theorem hasValue_blank {vars : List ℕ} (hvars : Assignment [95] vars) :
    ∃ v, HasValue [95] vars v := by
  obtain ⟨hlength, hdigits⟩ := hvars
  obtain ⟨d, rfl⟩ := List.length_eq_one_iff.mp hlength
  have hd := hdigits d (List.mem_singleton_self d)
  have hdigit : Scanf.isdigit (UInt8.ofNat (d + 48)) = true := by
    obtain ⟨hge, hle⟩ := hd
    interval_cases d <;> rfl
  have hunsigned : IsUnsigned [UInt8.ofNat (d + 48)] :=
    ⟨List.cons_ne_nil _ _, fun b hb => List.mem_singleton.mp hb ▸ hdigit⟩
  obtain ⟨z, hscan, _⟩ := Descent.scanInt_of_isSigned hunsigned.isSigned Scanf.isdigit_head_nil
  refine ⟨z, .num [UInt8.ofNat (d + 48)], hunsigned.isSigned, rfl, ?_⟩
  rw [Written.exactValue, Written.eval, Written.exactLiteral, hscan, Option.map_some]

/-- `_=5` -/
theorem magic_numbers_iff_sample :
    (∃ found, magicNumbers ([95] ++ 61 :: [53]) = some found ∧
      PrintsSolutions [95] [53] 5 found) ↔
    (int 5 = some 5 ∧ ∀ vars, Assignment [95] vars → IntValued [95] vars) ∧
      ¬ HasValue [95] (ones [95]) 5 ∧ Countable [95] 5 :=
  magic_numbers_iff pattern_blank (Or.inl (by decide)) (by decide +kernel)
    fun _ => hasValue_blank

/-- For `_=1` the solution 1 is printed, and 0 is returned. -/
theorem magic_numbers_miscounts :
    Pattern [95] ∧ IsSigned [49] ∧ Written.exactLiteral [49] = some 1 ∧
    (∀ vars, Assignment [95] vars → ∃ v, HasValue [95] vars v) ∧
    ¬ ∃ found, magicNumbers ([95] ++ 61 :: [49]) = some found ∧
      PrintsSolutions [95] [49] 1 found := by
  refine ⟨pattern_blank, Or.inl (by decide), by decide +kernel,
    fun _ => hasValue_blank, ?_⟩
  rintro ⟨found, hfound, solutions, hprinted, _, _, hcount⟩
  have hresult : magicNumbers ([95] ++ 61 :: [49]) = some ⟨[[49, 61, 49, 10]], 0⟩ := by
    decide +kernel
  rw [hresult, Option.some.injEq] at hfound
  rw [← hfound] at hprinted hcount
  have hlength := congrArg List.length hprinted
  rw [List.length_map, ← hcount] at hlength
  cases hlength

end InterviewQuestions.MagicNumbers

import InterviewQuestions.Library.Arithmetic
import InterviewQuestions.Library.LinkedLists

/-! `stacks_queues/rpn_calculator`: `solution.c` with a stack, and `solution_recursive.c` with a
circular list of tokens. There is no result when `assert` fails, when a division is by zero, when a
value or the offset of `solution.c` is no `int`, and where a pointer has no node. -/
namespace InterviewQuestions.RpnCalculator

open Library Scanf LinkedCells

open Arithmetic (int)

/-- `STACK_SZ` -/
def stackSz : ℕ := 1024

/-- `sscanf(.., " %d%n", ..)`: the number and how many characters it takes. -/
def scanValue (input : List UInt8) : Option (ℤ × ℕ) :=
  (scanInt (skipSpace input)).map fun found => (found.1, input.length - found.2.length)

/-- `sscanf(.., " %c%n", ..)` -/
def scanChar (input : List UInt8) : Option (UInt8 × ℕ) :=
  match skipSpace input with
  | [] => none
  | op :: rest => some (op, input.length - rest.length)

/-- What `switch` does with both operands. -/
def compute (op : UInt8) (left right : ℤ) : Option ℤ :=
  if op = 43 then int (left + right)
  else if op = 45 then int (left - right)
  else if op = 42 then int (left * right)
  else if op = 47 then if right ≠ 0 then int (left.tdiv right) else none
  else none

/-! ## The stack -/

/-- The last value that has been pushed comes first. -/
def push (stack : List ℤ) (n : ℤ) : Option (List ℤ) :=
  if stack.length < stackSz then some (n :: stack) else none

def pop : List ℤ → Option (ℤ × List ℤ)
  | [] => none
  | n :: stack => some (n, stack)

/-- The loop of `eval_expr`, which is left when there is nothing more to read. -/
def evalLoop (expr : List UInt8) : ℕ → List ℤ → ℕ → Option (List ℤ)
  | 0, _, _ => none
  | fuel + 1, stack, offset =>
      match scanValue (expr.drop offset) with
      | some (val, offsetIncr) => do
          let val ← int val
          let stack ← push stack val
          let _ ← int (offset + offsetIncr : ℕ)
          evalLoop expr fuel stack (offset + offsetIncr)
      | none =>
          match scanChar (expr.drop offset) with
          | some (op, offsetIncr) => do
              let (right, stack) ← pop stack
              let (left, stack) ← pop stack
              let val ← compute op left right
              let stack ← push stack val
              let _ ← int (offset + offsetIncr : ℕ)
              evalLoop expr fuel stack (offset + offsetIncr)
          | none => some stack

/-- The value, and what is left on the stack. Each iteration but the last reads a character. -/
def evalExpr (stack : List ℤ) (expr : List UInt8) : Option (ℤ × List ℤ) := do
  let stack ← evalLoop expr (expr.length + 1) stack 0
  pop stack

/-! ## The list -/

/-- `type` and `token` of a node. -/
inductive Token where
  | op (c : UInt8)
  | val (n : ℤ)
deriving DecidableEq

abbrev Address := ℕ

abbrev Memory := Address → Option (Cell Address Token)

/-- `prev->next = new_node; new_node->next = head;`, for a new node with its token. -/
def appendNode (mem : Memory) (head prev newNode : Address) (token : Token) : Option Memory :=
  setNext (Function.update mem newNode (some ⟨token, some head⟩)) prev (some newNode)

/-- The loop of `read_expr`. The node with the number `count` is at `blocks count`, where `malloc`
has found room for it; the one that is not needed is freed. -/
def readLoop (line : List UInt8) (head : Address) (blocks : ℕ → Address) :
    ℕ → ℕ → Memory → Address → ℕ → Option Memory
  | 0, _, _, _, _ => none
  | fuel + 1, count, mem, prev, offset =>
      match scanValue (line.drop offset) with
      | some (val, offsetIncr) => do
          let val ← int val
          let mem ← appendNode mem head prev (blocks count) (.val val)
          readLoop line head blocks fuel (count + 1) mem (blocks count) (offset + offsetIncr)
      | none =>
          match scanChar (line.drop offset) with
          | some (op, offsetIncr) =>
              if op = 43 ∨ op = 45 ∨ op = 42 ∨ op = 47 then do
                let mem ← appendNode mem head prev (blocks count) (.op op)
                readLoop line head blocks fuel (count + 1) mem (blocks count) (offset + offsetIncr)
              else none
          | none => some (Function.update mem (blocks count) none)

/-- The memory with the list of the tokens of a line. -/
def readExpr (mem : Memory) (head : Address) (blocks : ℕ → Address) (line : List UInt8) :
    Option Memory := do
  let mem ← setNext mem head (some head)
  readLoop line head blocks (line.length + 1) 0 mem head 0

/-- `token.val` -/
def Token.asVal : Token → Option ℤ
  | op _ => none
  | val n => some n

/-- `token.op` -/
def Token.asOp : Token → Option UInt8
  | op c => some c
  | val _ => none

def free (mem : Memory) (a : Address) : Option Memory :=
  (mem a).map fun _ => Function.update mem a none

/-- What is done with `curr`, the next operand and its operator. -/
def applyNext (mem : Memory) (curr : Address) : Option Memory := do
  let node ← mem curr
  let next ← node.next
  let nextNode ← mem next
  let opPtr ← nextNode.next
  let opNode ← mem opPtr
  let res ← compute (← opNode.data.asOp) (← node.data.asVal) (← nextNode.data.asVal)
  let mem ← setData mem curr (.val res)
  let mem ← setNext mem curr opNode.next
  let mem ← free mem opPtr
  free mem next

/-- There is no result where the recursion is deeper than `depth`. -/
def evalExprAux (head : Address) : ℕ → Address → Memory → Option Memory
  | 0, _, _ => none
  | depth + 1, curr, mem => do
      let node ← mem curr
      let next ← node.next
      if next = head then return mem
      else
        let nextNode ← mem next
        match nextNode.data with
        | .op _ => return mem
        | .val _ => do
            let mem ← evalExprAux head depth next mem
            let mem ← applyNext mem curr
            evalExprAux head depth curr mem

/-- The memory and the value. -/
def evalExprList (depth : ℕ) (mem : Memory) (head : Address) : Option (Memory × ℤ) := do
  let headNode ← mem head
  let mem ← evalExprAux head depth (← headNode.next) mem
  let headNode ← mem head
  let first ← headNode.next
  let node ← mem first
  let val ← node.data.asVal
  let mem ← free mem first
  let mem ← setNext mem head (some head)
  return (mem, val)

/-! The loop of `solution.c` reads the tokens of an expression one by one, and does with its stack
what each of them asks for. -/

open Arithmetic (Op int_eq_some)

open ReversePolish (foldlM_tokens)

/-- Expressions over `int`s. -/
abbrev Expr := ReversePolish.Expression ℤ Op

abbrev ExprToken := ReversePolish.Token ℤ Op

variable {t : Expr} {tok : ExprToken} {toks : List ExprToken} {input expr gap : List UInt8}
  {stack stack' : List ℤ} {fuel offset : ℕ} {op : Op} {v z : ℤ}

/-! ## Spelling -/

def spell : ExprToken → List UInt8
  | .value z => printInt z
  | .operator op => [op.char]

/-- The tokens with white space between them, and perhaps around them. -/
def Spelled : List ExprToken → List UInt8 → Prop
  | [], input => ∀ b ∈ input, isspace b = true
  | tok :: toks, input => ∃ gap rest, input = gap ++ (spell tok ++ rest) ∧
      (∀ b ∈ gap, isspace b = true) ∧ (∀ b ∈ rest.head?, isspace b = true) ∧ Spelled toks rest

theorem skipSpace_append (hgap : ∀ b ∈ gap, isspace b = true) (input : List UInt8) :
    skipSpace (gap ++ input) = skipSpace input :=
  List.dropWhile_append_of_pos hgap

theorem isdigit_of_isspace {b : UInt8} (h : isspace b = true) : isdigit b = false := by
  by_contra hdigit
  rw [Bool.not_eq_false] at hdigit
  rw [isspace_of_isdigit hdigit] at h
  cases h

theorem isspace_char (op : Op) : isspace op.char = false := by
  cases op <;> rfl

/-- What stays behind the characters that have been read. -/
theorem drop_length_sub (before rest : List UInt8) :
    (before ++ rest).drop ((before ++ rest).length - rest.length) = rest := by
  rw [List.length_append, Nat.add_sub_cancel, List.drop_left]

theorem Spelled.value (h : Spelled (.value z :: toks) input) :
    ∃ incr, scanValue input = some (z, incr) ∧ incr ≤ input.length ∧
      Spelled toks (input.drop incr) := by
  obtain ⟨gap, rest, rfl, hgap, hrest, htoks⟩ := h
  have hscan : scanInt (skipSpace (gap ++ (printInt z ++ rest))) = some (z, rest) := by
    rw [skipSpace_append hgap, skipSpace_printInt]
    exact scanInt_printInt z fun b hb => isdigit_of_isspace (hrest b hb)
  refine ⟨_, ?_, Nat.sub_le _ rest.length, ?_⟩
  · rw [scanValue, spell, hscan]
    rfl
  · rw [spell, ← List.append_assoc, drop_length_sub]
    exact htoks

/-- An operator is no number, even where it could be a sign. -/
theorem Spelled.operator (h : Spelled (.operator op :: toks) input) :
    scanValue input = none ∧ ∃ incr, scanChar input = some (op.char, incr) ∧
      incr ≤ input.length ∧ Spelled toks (input.drop incr) := by
  obtain ⟨gap, rest, rfl, hgap, hrest, htoks⟩ := h
  have hskip : skipSpace (gap ++ (spell (.operator op) ++ rest)) = op.char :: rest := by
    rw [skipSpace_append hgap]
    apply skipSpace_of_head
    intro b hb
    cases hb
    exact isspace_char op
  have hrestNat : scanNat rest = none := by
    cases rest with
    | nil => rfl
    | cons b rest =>
      have hb := isdigit_of_isspace (hrest b rfl)
      rw [scanNat, List.takeWhile_cons_of_neg (by simp [hb])]
  constructor
  · rw [scanValue, hskip, Option.map_eq_none_iff]
    cases op with
    | add => rw [Op.char, scanInt_plus, hrestNat, Option.map_none]
    | sub => rw [Op.char, scanInt_minus, hrestNat, Option.map_none]
    | mul => rfl
    | div => rfl
  · refine ⟨_, ?_, Nat.sub_le _ rest.length, ?_⟩
    · rw [scanChar, hskip]
    · rw [← List.append_assoc, drop_length_sub]
      exact htoks

theorem Spelled.nil (h : Spelled [] input) : scanValue input = none ∧ scanChar input = none := by
  have hskip : skipSpace input = [] := List.dropWhile_eq_nil_iff.mpr h
  constructor
  · rw [scanValue, hskip]
    rfl
  · rw [scanChar, hskip]

/-! ## The loop -/

theorem compute_char (op : Op) (x y : ℤ) : compute op.char x y = op.apply x y := by
  cases op with
  | add => rfl
  | sub => rfl
  | mul => rfl
  | div =>
    have hcompute : compute 47 x y = if y ≠ 0 then int (x.tdiv y) else none := rfl
    rw [Op.char, hcompute, Op.apply, Op.exact]
    by_cases hy : y = 0
    · rw [if_neg (not_not.mpr hy), if_pos hy, Option.bind_none]
    · rw [if_pos hy, if_neg hy, Option.bind_some]

/-- One iteration does with a token what the stack machine does. -/
theorem evalLoop_token (hspelled : Spelled (tok :: toks) (expr.drop offset))
    (hstep : ReversePolish.step Op.apply stackSz stack tok = some stack')
    (hint : ∀ z, tok = .value z → int z = some z) (hstack : stack.length ≤ stackSz)
    (hlength : expr.length < 2 ^ 31) (hoffset : offset ≤ expr.length) :
    ∃ incr, Spelled toks (expr.drop (offset + incr)) ∧ offset + incr ≤ expr.length ∧
      stack'.length ≤ stackSz ∧ ∀ fuel, evalLoop expr (fuel + 1) stack offset =
        evalLoop expr fuel stack' (offset + incr) := by
  have hoffsetInt (n : ℕ) (hn : n ≤ expr.length) : int (n : ℤ) = some (n : ℤ) :=
    int_eq_some.mpr ⟨rfl, by omega, by omega⟩
  cases tok with
  | value z =>
    obtain ⟨incr, hscan, hincr, hspelled'⟩ := hspelled.value
    rw [List.length_drop] at hincr
    rw [List.drop_drop] at hspelled'
    rw [ReversePolish.step] at hstep
    split_ifs at hstep with hlt
    cases hstep
    have hpush : push stack z = some (z :: stack) := if_pos hlt
    have hnext : offset + incr ≤ expr.length := by omega
    refine ⟨incr, hspelled', hnext, hlt, fun fuel => ?_⟩
    rw [evalLoop, hscan]
    simp only [Option.bind_eq_bind, Option.bind_some, hint z rfl, hpush, hoffsetInt _ hnext]
  | operator op =>
    obtain ⟨hnone, incr, hscan, hincr, hspelled'⟩ := hspelled.operator
    rw [List.length_drop] at hincr
    rw [List.drop_drop] at hspelled'
    have hnext : offset + incr ≤ expr.length := by omega
    cases stack with
    | nil => cases hstep
    | cons y stack =>
      cases stack with
      | nil => cases hstep
      | cons x stack =>
        obtain ⟨val, hval, rfl⟩ := Option.map_eq_some_iff.mp hstep
        rw [List.length_cons, List.length_cons] at hstack
        have hlt : stack.length < stackSz := by omega
        have hpush : push stack val = some (val :: stack) := if_pos hlt
        refine ⟨incr, hspelled', hnext, hlt, fun fuel => ?_⟩
        rw [evalLoop, hnone]
        dsimp only
        rw [hscan]
        simp only [pop, Option.bind_eq_bind, Option.bind_some, compute_char, hval, hpush,
          hoffsetInt _ hnext]

/-- What the stack machine does with the tokens, the loop does with the text. -/
theorem evalLoop_eq (hspelled : Spelled toks (expr.drop offset))
    (hrun : toks.foldlM (ReversePolish.step Op.apply stackSz) stack = some stack')
    (hint : ∀ z, .value z ∈ toks → int z = some z) (hstack : stack.length ≤ stackSz)
    (hlength : expr.length < 2 ^ 31) (hoffset : offset ≤ expr.length) (hfuel : toks.length < fuel) :
    evalLoop expr fuel stack offset = some stack' := by
  induction toks generalizing fuel stack offset with
  | nil =>
    cases fuel with
    | zero => exact absurd hfuel (Nat.not_lt_zero _)
    | succ fuel =>
      cases hrun
      rw [evalLoop, hspelled.nil.1]
      dsimp only
      rw [hspelled.nil.2]
  | cons tok toks ih =>
    cases fuel with
    | zero => exact absurd hfuel (Nat.not_lt_zero _)
    | succ fuel =>
      rw [List.foldlM_cons] at hrun
      obtain ⟨next, hstep, hrun⟩ := Option.bind_eq_some_iff.mp hrun
      obtain ⟨incr, hspelled', hnext, hstack', hloop⟩ := evalLoop_token hspelled hstep
        (fun z hz => hint z (hz ▸ List.mem_cons_self)) hstack hlength hoffset
      rw [hloop]
      exact ih hspelled' hrun (fun z hz => hint z (List.mem_cons_of_mem tok hz)) hstack' hnext
        (Nat.lt_of_succ_lt_succ hfuel)

/-- There are no more tokens than characters. -/
theorem Spelled.length_le (h : Spelled toks input) : toks.length ≤ input.length := by
  induction toks generalizing input with
  | nil => exact Nat.zero_le _
  | cons tok toks ih =>
    obtain ⟨gap, rest, rfl, -, -, htoks⟩ := h
    have hrest := ih htoks
    have htok : 0 < (spell tok).length := by
      cases tok with
      | value z => exact List.length_pos_iff.mpr (printInt_ne_nil z)
      | operator op => exact Nat.one_pos
    rw [List.length_cons, List.length_append, List.length_append]
    omega

/-- The value of the expression is returned, and the stack is what it was before. -/
theorem evalExpr_eq (hspelled : Spelled t.tokens expr) (hv : t.eval Op.apply = some v)
    (hint : ∀ z, .value z ∈ t.tokens → int z = some z)
    (hroom : t.height + stack.length ≤ stackSz) (hlength : expr.length < 2 ^ 31) :
    evalExpr stack expr = some (v, stack) := by
  have hrun := foldlM_tokens hv hroom
  have hloop : evalLoop expr (expr.length + 1) stack 0 = some (v :: stack) :=
    evalLoop_eq hspelled hrun hint (by omega) hlength (Nat.zero_le _)
      (Nat.lt_succ_of_le hspelled.length_le)
  rw [evalExpr, hloop]
  rfl

end InterviewQuestions.RpnCalculator

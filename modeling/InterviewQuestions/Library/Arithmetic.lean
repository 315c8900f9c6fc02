import InterviewQuestions.Library.Scanf
import Mathlib.Data.Option.Basic
import Mathlib.Order.Nat

/-! Arithmetic expressions: as trees, and as they are written, with digits and parentheses. -/
namespace InterviewQuestions.Library.Arithmetic

open Scanf

/-! ## Numbers -/

inductive Op where
  | add
  | sub
  | mul
  | div
deriving DecidableEq, Repr

/-- A value that an `int` can hold. Beyond it the behaviour of C is undefined. -/
def int (z : ℤ) : Option ℤ := if -2 ^ 31 ≤ z ∧ z < 2 ^ 31 then some z else none

namespace Op

def char : Op → UInt8
  | add => 43
  | sub => 45
  | mul => 42
  | div => 47

/-- The operators of `expr` are of level 0, those of `term` of level 1. -/
def level : Op → ℕ
  | add | sub => 0
  | mul | div => 1

/-- Integers of any size; the division truncates. -/
def exact : Op → ℤ → ℤ → Option ℤ
  | add, x, y => some (x + y)
  | sub, x, y => some (x - y)
  | mul, x, y => some (x * y)
  | div, x, y => if y = 0 then none else some (x.tdiv y)

/-- The operator on two `int`s. -/
def apply (op : Op) (x y : ℤ) : Option ℤ := (op.exact x y).bind int

end Op

theorem int_eq_some {z v : ℤ} : int z = some v ↔ v = z ∧ -2 ^ 31 ≤ z ∧ z < 2 ^ 31 := by
  unfold int
  by_cases h : -2 ^ 31 ≤ z ∧ z < 2 ^ 31
  · rw [if_pos h, Option.some.injEq, and_iff_left h, eq_comm]
  · rw [if_neg h]
    exact iff_of_false (fun hv => by cases hv) fun hv => h hv.2

/-- A size that is converted to an `int`. -/
theorem bmod_cases (n : ℕ) :
    (n % 2 ^ 32 < 2 ^ 31 ∧ (n : ℤ).bmod (2 ^ 32) = (n % 2 ^ 32 : ℕ)) ∨
      (2 ^ 31 ≤ n % 2 ^ 32 ∧ (n : ℤ).bmod (2 ^ 32) = (n % 2 ^ 32 : ℕ) - 2 ^ 32) := by
  have hmod : (n : ℤ) % (2 ^ 32 : ℕ) = (n % 2 ^ 32 : ℕ) := (Int.natCast_mod n (2 ^ 32)).symm
  rw [Int.bmod_def, hmod]
  split <;> omega

/-! ## Trees -/

inductive Tree where
  | lit (n : ℕ)
  | node (op : Op) (l r : Tree)
deriving DecidableEq, Repr

/-- The value, if no division is by zero and all values on the way are `int`s. -/
def Tree.value : Tree → Option ℤ
  | lit n => int n
  | node op l r => l.value.bind fun x => r.value.bind (op.apply x)

/-! ## Written expressions -/

/-- An expression with its numerals and its pairs of parentheses. -/
inductive Written where
  | num (digits : List UInt8)
  | paren (e : Written)
  | bin (op : Op) (l r : Written)
deriving DecidableEq, Repr

/-- Digits, at least one. -/
def IsUnsigned (digits : List UInt8) : Prop := digits ≠ [] ∧ ∀ b ∈ digits, isdigit b = true

instance : DecidablePred IsUnsigned := fun digits =>
  haveI := List.decidableBAll (isdigit · = true) digits
  inferInstanceAs (Decidable (digits ≠ [] ∧ ∀ b ∈ digits, isdigit b = true))

/-- Digits, with or without a sign before them. -/
def IsSigned (digits : List UInt8) : Prop :=
  IsUnsigned digits ∨ ∃ sign rest, (sign = 43 ∨ sign = 45) ∧ digits = sign :: rest ∧ IsUnsigned rest

namespace Written

def text : Written → List UInt8
  | num digits => digits
  | paren e => 40 :: e.text ++ [41]
  | bin op l r => l.text ++ op.char :: r.text

/-- The expression is one of the grammar's `expr` (0), `term` (1) or `factor` (2). -/
def Fits (numeral : List UInt8 → Prop) : ℕ → Written → Prop
  | _, num digits => numeral digits
  | _, paren e => e.Fits numeral 0
  | level, bin op l r => level ≤ op.level ∧ l.Fits numeral op.level ∧ r.Fits numeral (op.level + 1)

instance decidableFits {numeral : List UInt8 → Prop} [DecidablePred numeral] :
    ∀ level (e : Written), Decidable (e.Fits numeral level)
  | _, num digits => inferInstanceAs (Decidable (numeral digits))
  | _, paren e => decidableFits 0 e
  | _, bin op l r =>
      haveI : Decidable (l.Fits numeral op.level) := decidableFits op.level l
      haveI : Decidable (r.Fits numeral (op.level + 1)) := decidableFits (op.level + 1) r
      inferInstanceAs (Decidable (_ ∧ _ ∧ _))

/-- The tree that is written. -/
def erase : Written → Tree
  | num digits => .lit (Scanf.value digits)
  | paren e => e.erase
  | bin op l r => .node op l.erase r.erase

/-- The value by an arithmetic of the numerals and the operators. -/
def eval (literal : List UInt8 → Option ℤ) (apply : Op → ℤ → ℤ → Option ℤ) : Written → Option ℤ
  | num digits => literal digits
  | paren e => e.eval literal apply
  | bin op l r => (l.eval literal apply).bind fun x => (r.eval literal apply).bind (apply op x)

/-- The integer that a numeral stands for. -/
def exactLiteral (digits : List UInt8) : Option ℤ := (scanInt digits).map fun found => found.1

/-- The `int` that a numeral stands for. -/
def intLiteral (digits : List UInt8) : Option ℤ := (scanInt digits).bind fun found => int found.1

/-- The value as an integer, if no division is by zero. -/
def exactValue : Written → Option ℤ := eval exactLiteral Op.exact

/-- The value, if all values on the way are `int`s too. -/
def intValue : Written → Option ℤ := eval intLiteral Op.apply

theorem intValue_paren (e : Written) : (paren e).intValue = e.intValue := rfl

theorem intValue_bin (op : Op) (l r : Written) : (bin op l r).intValue =
    l.intValue.bind fun x => r.intValue.bind fun y => op.apply x y := rfl

theorem exactValue_bin (op : Op) (l r : Written) : (bin op l r).exactValue =
    l.exactValue.bind fun x => r.exactValue.bind fun y => op.exact x y := rfl

/-- A value reached with `int`s is the value. -/
theorem exactValue_of_intValue {e : Written} {v : ℤ} (h : e.intValue = some v) :
    e.exactValue = some v := by
  induction e generalizing v with
  | num ds =>
    obtain ⟨found, hfound, hint⟩ := Option.bind_eq_some_iff.mp h
    rw [(int_eq_some.mp hint).1, exactValue, eval, exactLiteral, hfound]
    rfl
  | paren e ih => exact ih h
  | bin op l r ihl ihr =>
    obtain ⟨x, hx, hrest⟩ := Option.bind_eq_some_iff.mp h
    obtain ⟨y, hy, hop⟩ := Option.bind_eq_some_iff.mp hrest
    obtain ⟨w, hw, hint⟩ := Option.bind_eq_some_iff.mp hop
    have hl := ihl hx
    have hr := ihr hy
    rw [exactValue] at hl hr ⊢
    rw [(int_eq_some.mp hint).1, eval, hl, hr, Option.bind_some, Option.bind_some, hw]

variable {numeral : List UInt8 → Prop} {level level' : ℕ} {e : Written}

theorem Fits.mono (h : e.Fits numeral level) (hle : level' ≤ level) : e.Fits numeral level' := by
  cases e with
  | num digits => exact h
  | paren e => exact h
  | bin op l r => exact ⟨hle.trans h.1, h.2⟩

theorem Fits.numerals {numeral' : List UInt8 → Prop} (himp : ∀ ds, numeral ds → numeral' ds)
    (h : e.Fits numeral level) : e.Fits numeral' level := by
  induction e generalizing level with
  | num digits => exact himp digits h
  | paren e ih => exact ih h
  | bin op l r ihl ihr => exact ⟨h.1, ihl h.2.1, ihr h.2.2⟩

end Written

theorem IsUnsigned.isSigned {digits : List UInt8} (h : IsUnsigned digits) : IsSigned digits :=
  Or.inl h

/-! ## Renderings -/

/-- The tree is written with the parentheses that precedence and left associativity ask for,
and perhaps others. -/
structure Renders (e : Written) (t : Tree) : Prop where
  fits : e.Fits IsUnsigned 0
  tree : e.erase = t

namespace Tree

/-- All operations in parentheses. -/
def full : Tree → Written
  | lit n => .num (printNat n)
  | node op l r => .paren (.bin op l.full r.full)

/-- Parentheses only around an operation that stands where its level does not fit. -/
def minimal : ℕ → Tree → Written
  | _, lit n => .num (printNat n)
  | level, node op l r =>
      if level ≤ op.level then .bin op (l.minimal op.level) (r.minimal (op.level + 1))
      else .paren (.bin op (l.minimal op.level) (r.minimal (op.level + 1)))

end Tree

theorem isUnsigned_printNat (n : ℕ) : IsUnsigned (printNat n) :=
  ⟨printNat_ne_nil n, fun _ hb => isdigit_of_mem_printNat hb⟩

theorem fits_full (t : Tree) (level : ℕ) : t.full.Fits IsUnsigned level := by
  induction t generalizing level with
  | lit n => exact isUnsigned_printNat n
  | node op l r ihl ihr => exact ⟨Nat.zero_le _, ihl _, ihr _⟩

theorem renders_full (t : Tree) : Renders t.full t where
  fits := fits_full t 0
  tree := by
    induction t with
    | lit n => simp [Tree.full, Written.erase]
    | node op l r ihl ihr => rw [Tree.full, Written.erase, Written.erase, ihl, ihr]

theorem fits_minimal (t : Tree) (level : ℕ) : (t.minimal level).Fits IsUnsigned level := by
  induction t generalizing level with
  | lit n => exact isUnsigned_printNat n
  | node op l r ihl ihr =>
    rw [Tree.minimal]
    split
    case isTrue hle => exact ⟨hle, ihl _, ihr _⟩
    case isFalse => exact ⟨Nat.zero_le _, ihl _, ihr _⟩

theorem renders_minimal (t : Tree) : Renders (t.minimal 0) t where
  fits := fits_minimal t 0
  tree := by
    generalize 0 = level
    induction t generalizing level with
    | lit n => simp [Tree.minimal, Written.erase]
    | node op l r ihl ihr =>
      rw [Tree.minimal]
      split <;> simp only [Written.erase, ihl, ihr]

end InterviewQuestions.Library.Arithmetic

/-! Expressions with every operator after its operands, and the stack for their values. -/
namespace InterviewQuestions.Library.ReversePolish

variable {α ω : Type*}

inductive Expression (α ω : Type*) where
  | leaf (v : α)
  | node (op : ω) (l r : Expression α ω)
deriving DecidableEq

inductive Token (α ω : Type*) where
  | value (v : α)
  | operator (op : ω)
deriving DecidableEq

namespace Expression

def tokens : Expression α ω → List (Token α ω)
  | leaf v => [.value v]
  | node op l r => l.tokens ++ (r.tokens ++ [.operator op])

/-- The value of the first token. -/
def first : Expression α ω → α
  | leaf v => v
  | node _ l _ => l.first

/-- The other tokens. -/
def later : Expression α ω → List (Token α ω)
  | leaf _ => []
  | node op l r => l.later ++ (.value r.first :: (r.later ++ [.operator op]))

def eval (apply : ω → α → α → Option α) : Expression α ω → Option α
  | leaf v => some v
  | node op l r => (l.eval apply).bind fun x => (r.eval apply).bind (apply op x)

/-- How many values are on the stack at once. -/
def height : Expression α ω → ℕ
  | leaf _ => 1
  | node _ l r => max l.height (1 + r.height)

theorem tokens_eq (t : Expression α ω) : t.tokens = .value t.first :: t.later := by
  induction t with
  | leaf v => rfl
  | node op l r ihl ihr => rw [tokens, ihl, ihr, first, later, List.cons_append, List.cons_append]

end Expression

/-- One token with a stack that has room for `capacity` values, the last one in front. -/
def step (apply : ω → α → α → Option α) (capacity : ℕ) (stack : List α) :
    Token α ω → Option (List α)
  | .value v => if stack.length < capacity then some (v :: stack) else none
  | .operator op =>
      match stack with
      | y :: x :: stack => (apply op x y).map (· :: stack)
      | _ => none

/-- The tokens of an expression leave its value on the stack. -/
theorem foldlM_tokens {apply : ω → α → α → Option α} {capacity : ℕ} {t : Expression α ω} {v : α}
    {stack : List α} (hv : t.eval apply = some v) (hroom : t.height + stack.length ≤ capacity) :
    t.tokens.foldlM (step apply capacity) stack = some (v :: stack) := by
  induction t generalizing stack v with
  | leaf w =>
    cases hv
    have hlt : stack.length < capacity := by
      rw [Expression.height] at hroom
      omega
    rw [Expression.tokens, List.foldlM_cons, step, if_pos hlt]
    rfl
  | node op l r ihl ihr =>
    obtain ⟨x, hx, hrest⟩ := Option.bind_eq_some_iff.mp hv
    obtain ⟨y, hy, hop⟩ := Option.bind_eq_some_iff.mp hrest
    rw [Expression.height] at hroom
    have hleft : l.tokens.foldlM (step apply capacity) stack = some (x :: stack) :=
      ihl hx (by omega)
    have hright : r.tokens.foldlM (step apply capacity) (x :: stack) = some (y :: x :: stack) :=
      ihr hy (by rw [List.length_cons]; omega)
    rw [Expression.tokens, List.foldlM_append, hleft, Option.bind_eq_bind, Option.bind_some,
      List.foldlM_append, hright, Option.bind_eq_bind, Option.bind_some, List.foldlM_cons, step,
      hop]
    rfl

end InterviewQuestions.Library.ReversePolish

import InterviewQuestions.Library.Scanf

/-! The values of C expressions in brackets: names, numbers, `+`, `*`, `/`, `%` and parentheses,
with values of 64 bits. The recursion has fuel. -/
namespace InterviewQuestions.Library.Subscript

open Scanf

/-- The characters of a name after the first one. -/
def isident (b : UInt8) : Bool :=
  isdigit b || (65 ≤ b && b ≤ 90) || (97 ≤ b && b ≤ 122) || b = 95

/-- A name in C. -/
def IsName (name : List UInt8) : Prop :=
  name.head?.all (! isdigit ·) = true ∧ name ≠ [] ∧ name.all isident = true

instance : DecidablePred IsName := fun _ => inferInstanceAs (Decidable (_ ∧ _ ∧ _))

def word (n : ℕ) : Option ℕ := if n < 2 ^ 64 then some n else none

/-- What `op` makes of two values, if it is one of `*`, `/` and `%`. -/
def mulOp (op : UInt8) : Option (ℕ → ℕ → Option ℕ) :=
  if op = 42 then some fun x y => word (x * y)
  else if op = 47 then some fun x y => if y = 0 then none else some (x / y)
  else if op = 37 then some fun x y => if y = 0 then none else some (x % y)
  else none

section Evaluator

variable (env : List UInt8 → ℕ)

mutual

/-- The value, and what follows the expression. -/
def expr : ℕ → List UInt8 → Option (ℕ × List UInt8)
  | 0, _ => none
  | fuel + 1, s => do
      let (x, s) ← term fuel s
      exprR fuel x s

def exprR : ℕ → ℕ → List UInt8 → Option (ℕ × List UInt8)
  | 0, _, _ => none
  | fuel + 1, x, s =>
      if s.head? = some 43 then do
        let (y, s) ← term fuel s.tail
        let sum ← word (x + y)
        exprR fuel sum s
      else some (x, s)

def term : ℕ → List UInt8 → Option (ℕ × List UInt8)
  | 0, _ => none
  | fuel + 1, s => do
      let (x, s) ← factor fuel s
      termR fuel x s

def termR : ℕ → ℕ → List UInt8 → Option (ℕ × List UInt8)
  | 0, _, _ => none
  | fuel + 1, x, s =>
      match s.head?.bind mulOp with
      | some op => do
          let (y, s) ← factor fuel s.tail
          let res ← op x y
          termR fuel res s
      | none => some (x, s)

def factor : ℕ → List UInt8 → Option (ℕ × List UInt8)
  | 0, _ => none
  | fuel + 1, s =>
      if s.head? = some 40 then do
        let (x, s) ← expr fuel s.tail
        if s.head? = some 41 then return (x, s.tail) else none
      else if s.head?.any isdigit then do
        let (n, s) ← scanNat s
        let n ← word n
        return (n, s)
      else if s.head?.any isident then some (env (s.takeWhile isident), s.dropWhile isident)
      else none

end

/-- The values of all expressions in brackets, up to the end. -/
def brackets : ℕ → List UInt8 → Option (List ℕ)
  | 0, _ => none
  | fuel + 1, s =>
      if s = [] then some []
      else if s.head? = some 91 then do
        let (x, s) ← expr env fuel s.tail
        if s.head? = some 93 then do
          let rest ← brackets fuel s.tail
          return x :: rest
        else none
      else none

/-- The indices of an array access, after the name of the array. -/
def indices (fuel : ℕ) (s : List UInt8) : Option (List ℕ) :=
  brackets env fuel (s.dropWhile isident)

end Evaluator

variable {env : List UInt8 → ℕ} {fuel n x y z : ℕ} {name s t rest : List UInt8} {op : UInt8}
  {f : ℕ → ℕ → Option ℕ}

theorem word_of_lt (h : n < 2 ^ 64) : word n = some n := if_pos h

/-! ## Factors -/

theorem factor_name (hname : IsName name) (hrest : ∀ b ∈ rest.head?, isident b = false) :
    factor env (fuel + 1) (name ++ rest) = some (env name, rest) := by
  obtain ⟨hfirst, hne, hall⟩ := hname
  obtain ⟨htake, hdrop⟩ := takeWhile_append_stop (List.all_eq_true.mp hall) hrest
  rw [factor, htake, hdrop]
  cases name with
  | nil => exact absurd rfl hne
  | cons b name =>
    have hb : isident b = true := List.all_eq_true.mp hall b List.mem_cons_self
    have hdigit : isdigit b = false := by simpa using hfirst
    have hparen : b ≠ 40 := by
      rintro rfl
      exact absurd hb (by decide)
    simp [hb, hdigit, hparen]

theorem factor_number (hn : n < 2 ^ 64) (hrest : ∀ b ∈ rest.head?, isdigit b = false) :
    factor env (fuel + 1) (printNat n ++ rest) = some (n, rest) := by
  have hscan := scanNat_printNat n hrest
  cases hdigits : printNat n with
  | nil => exact absurd hdigits (printNat_ne_nil n)
  | cons b digits =>
    have hb : isdigit b = true := by
      apply isdigit_of_mem_printNat (n := n)
      rw [hdigits]
      exact List.mem_cons_self
    have hparen : b ≠ 40 := by
      rintro rfl
      exact absurd hb (by decide)
    rw [hdigits] at hscan
    rw [factor, hscan]
    simp [hb, hparen, word_of_lt hn]

theorem factor_paren (h : expr env fuel s = some (x, 41 :: rest)) :
    factor env (fuel + 1) (40 :: s) = some (x, rest) := by
  rw [factor, List.head?_cons, if_pos rfl, List.tail_cons, h]
  rfl

/-! ## Operators -/

/-- A product, a quotient or a remainder that no further factor follows. -/
theorem term_op (hx : factor env (fuel + 2) s = some (x, op :: t)) (hop : mulOp op = some f)
    (hy : factor env (fuel + 1) t = some (y, rest)) (hz : f x y = some z)
    (hrest : rest.head?.bind mulOp = none) : term env (fuel + 3) s = some (z, rest) := by
  rw [term, hx]
  change termR env (fuel + 2) x (op :: t) = _
  rw [termR, List.head?_cons, Option.bind_some, hop, List.tail_cons, hy]
  simp only [Option.bind_eq_bind, Option.bind_some, hz]
  rw [termR, hrest]

theorem exprR_stop (hrest : rest.head? ≠ some 43) :
    exprR env (fuel + 1) x rest = some (x, rest) := by
  rw [exprR, if_neg hrest]

theorem exprR_add (hterm : term env fuel t = some (y, rest)) (hsum : x + y < 2 ^ 64) :
    exprR env (fuel + 1) x (43 :: t) = exprR env fuel (x + y) rest := by
  rw [exprR, List.head?_cons, if_pos rfl, List.tail_cons, hterm]
  simp only [Option.bind_eq_bind, Option.bind_some, word_of_lt hsum]

theorem expr_term (hterm : term env fuel s = some (x, rest)) :
    expr env (fuel + 1) s = exprR env fuel x rest := by
  rw [expr, hterm]
  rfl

/-! ## Brackets -/

theorem brackets_cons {xs : List ℕ} (hexpr : expr env fuel s = some (x, 93 :: rest))
    (hrest : brackets env fuel rest = some xs) :
    brackets env (fuel + 1) (91 :: s) = some (x :: xs) := by
  rw [brackets, if_neg (List.cons_ne_nil _ _), List.head?_cons, if_pos rfl, List.tail_cons, hexpr]
  simp [hrest]

theorem indices_name (hname : IsName name) (hrest : ∀ b ∈ rest.head?, isident b = false) :
    indices env fuel (name ++ rest) = brackets env fuel rest := by
  rw [indices, (takeWhile_append_stop (List.all_eq_true.mp hname.2.2) hrest).2]

end InterviewQuestions.Library.Subscript

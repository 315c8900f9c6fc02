import InterviewQuestions.Library.Descent

/-! The parser of `recursion_dp/expr_evaluator/solution.c`. A result is the value and the
cursor after it; there is none when `assert` or `sscanf` fails, when a division is by zero and
when a value is no `int`. -/
namespace InterviewQuestions.ExprEvaluator

open Library

variable (exprStr : List UInt8)

def expr : ℕ → ℕ → Option (ℤ × ℕ) := Descent.expr Descent.evaluator exprStr

def exprR : ℕ → ℕ → ℤ → Option (ℤ × ℕ) := Descent.exprR Descent.evaluator exprStr

def term : ℕ → ℕ → Option (ℤ × ℕ) := Descent.term Descent.evaluator exprStr

def termR : ℕ → ℕ → ℤ → Option (ℤ × ℕ) := Descent.termR Descent.evaluator exprStr

def factor : ℕ → ℕ → Option (ℤ × ℕ) := Descent.factor Descent.evaluator exprStr

/-- More calls than the recursion on the string nests. -/
def fuel : ℕ := 4 * exprStr.length + 4

def evalExpr : Option ℤ := (expr exprStr (fuel exprStr) 0).map fun res => res.1

end InterviewQuestions.ExprEvaluator

/-! What the evaluator makes of a tree that is written out. -/
namespace InterviewQuestions.ExprEvaluator

open Library Arithmetic

theorem intLiteral_of_isUnsigned {ds : List UInt8} (hds : IsUnsigned ds) :
    Written.intLiteral ds = int (Scanf.value ds) := by
  have hscan := Scanf.scanInt_append hds.1 hds.2 Scanf.isdigit_head_nil
  rw [List.append_nil] at hscan
  rw [Written.intLiteral, hscan, Option.bind_some]

theorem eval_eq_value {e : Written} {level : ℕ} (hfits : e.Fits IsUnsigned level) :
    e.intValue = e.erase.value := by
  induction e generalizing level with
  | num ds => exact intLiteral_of_isUnsigned hfits
  | paren e ih => exact ih hfits
  | bin op l r ihl ihr =>
    rw [Written.erase, Tree.value, ← ihl hfits.2.1, ← ihr hfits.2.2]
    rfl

/-- The parser consumes all of a rendering and returns the value of the tree. -/
theorem eval_expr_rendering (t : Tree) (e : Written) (v : ℤ) (he : Renders e t)
    (hv : t.value = some v) :
    expr e.text (fuel e.text) 0 = some (v, e.text.length) ∧ evalExpr e.text = some v := by
  have hexpr : expr e.text (fuel e.text) 0 = some (v, e.text.length) := by
    have hfits := he.fits.numerals fun _ => IsUnsigned.isSigned
    rw [expr, fuel, Descent.expr_evaluator hfits (Nat.le_refl _), eval_eq_value he.fits,
      he.tree, hv, Option.map_some]
  constructor
  · exact hexpr
  · rw [evalExpr, hexpr, Option.map_some]

/-- `4*(5+2)-1` -/
theorem eval_expr_rendering_sample :
    let t : Tree := .node .sub (.node .mul (.lit 4) (.node .add (.lit 5) (.lit 2))) (.lit 1)
    expr (t.minimal 0).text (fuel (t.minimal 0).text) 0 =
        some (27, (t.minimal 0).text.length) ∧
      evalExpr (t.minimal 0).text = some 27 :=
  eval_expr_rendering _ _ 27 (renders_minimal _) (by decide)

end InterviewQuestions.ExprEvaluator

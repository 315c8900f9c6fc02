import InterviewQuestions.Library.Arithmetic

/-! An expression whose right operand is written without its parentheses: what is read then,
and when that has the same value. -/
namespace InterviewQuestions.Library.Arithmetic

namespace Written

variable {numeral : List UInt8 → Prop} {level : ℕ} {op : Op} {e l r : Written}

/-- The operators outside all parentheses. -/
def tops : Written → Op → Bool
  | num _ | paren _ => fun _ => false
  | bin op l r => Function.update (fun o => l.tops o || r.tops o) op true

/-- What is read when `r` follows the operator without parentheses: its operators of no higher
level are applied after it. -/
def graft (op : Op) (l : Written) : Written → Written
  | bin op' a b => if op'.level ≤ op.level then bin op' (graft op l a) b else bin op l (bin op' a b)
  | r => bin op l r

@[simp] theorem text_graft (op : Op) (l r : Written) :
    (graft op l r).text = l.text ++ op.char :: r.text := by
  induction r with
  | num ds => rfl
  | paren e => rfl
  | bin op' a b iha =>
    rw [graft]
    split
    · simp [text, iha]
    · rfl

@[simp] theorem tops_graft (op : Op) (l r : Written) :
    (graft op l r).tops = (bin op l r).tops := by
  induction r with
  | num ds => rfl
  | paren e => rfl
  | bin op' a b iha =>
    rw [graft]
    split
    · funext o
      simp only [tops, iha, Function.update_apply]
      by_cases hop : o = op <;> by_cases hop' : o = op' <;> simp [hop, hop', Bool.or_assoc]
    · rfl

theorem level_le_one (op : Op) : op.level ≤ 1 := by
  cases op <;> decide

/-- Without `+` and `-` outside parentheses, an expression is a term. -/
theorem Fits.term (h : e.Fits numeral 0) (htops : ∀ o, e.tops o = true → o.level = 1) :
    e.Fits numeral 1 := by
  cases e with
  | num ds => exact h
  | paren e => exact h
  | bin op l r =>
    have hlevel : op.level = 1 := htops op (by rw [tops, Function.update_self])
    exact ⟨hlevel.ge, h.2⟩

/-- Without operators outside parentheses, an expression is a factor. -/
theorem Fits.factor (h : e.Fits numeral 0) (htops : ∀ o, e.tops o = false) :
    e.Fits numeral 2 := by
  cases e with
  | num ds => exact h
  | paren e => exact h
  | bin op l r =>
    have htop := htops op
    rw [tops, Function.update_self] at htop
    cases htop

theorem graft_fits (hl : l.Fits numeral op.level) (hr : r.Fits numeral op.level) :
    (graft op l r).Fits numeral op.level := by
  induction r with
  | num ds => exact ⟨Nat.le_refl _, hl, hr⟩
  | paren e => exact ⟨Nat.le_refl _, hl, hr⟩
  | bin op' a b iha =>
    rw [graft]
    split
    case isTrue hle =>
      have hlevel : op'.level = op.level := Nat.le_antisymm hle hr.1
      rw [Fits, hlevel] at hr ⊢
      exact ⟨Nat.le_refl _, iha hr.2.1, hr.2.2⟩
    case isFalse hlt =>
      exact ⟨Nat.le_refl _, hl, Nat.lt_of_not_le hlt, hr.2⟩

/-- An operand of a higher level is read as it was. -/
theorem graft_of_fits (hr : r.Fits numeral (op.level + 1)) : graft op l r = bin op l r := by
  cases r with
  | num ds => rfl
  | paren e => rfl
  | bin op' a b => rw [graft, if_neg (Nat.not_le_of_lt hr.1)]

/-- Sums and differences can be added one by one. -/
theorem exactValue_graft_add (hr : r.Fits numeral 0) :
    (graft .add l r).exactValue = (bin .add l r).exactValue := by
  induction r with
  | num ds => rfl
  | paren e => rfl
  | bin op a b iha =>
    rw [graft]
    split
    case isTrue hle =>
      have ha : a.Fits numeral 0 := hr.2.1.mono (Nat.zero_le _)
      rw [exactValue_bin, iha ha]
      simp only [exactValue_bin]
      cases l.exactValue with
      | none => rfl
      | some x =>
        cases a.exactValue with
        | none => rfl
        | some y =>
          cases b.exactValue with
          | none => rfl
          | some z =>
            cases op with
            | add => simp [Op.exact, Int.add_assoc]
            | sub => simp [Op.exact, Int.add_sub_assoc]
            | mul => cases hle
            | div => cases hle
    case isFalse => rfl

/-- Products can be multiplied one by one. -/
theorem exactValue_graft_mul (hr : r.Fits numeral 1) (hdiv : r.tops .div = false) :
    (graft .mul l r).exactValue = (bin .mul l r).exactValue := by
  induction r with
  | num ds => rfl
  | paren e => rfl
  | bin op a b iha =>
    rw [graft]
    split
    case isTrue =>
      have hop : op = .mul := by
        have hlevel := hr.1
        cases op with
        | mul => rfl
        | div =>
          rw [tops, Function.update_self] at hdiv
          cases hdiv
        | add => cases hlevel
        | sub => cases hlevel
      subst hop
      have ha : a.tops .div = false := by
        rw [tops, Function.update_of_ne (by decide), Bool.or_eq_false_iff] at hdiv
        exact hdiv.1
      rw [exactValue_bin, iha hr.2.1 ha]
      simp only [exactValue_bin]
      cases l.exactValue with
      | none => rfl
      | some x =>
        cases a.exactValue with
        | none => rfl
        | some y =>
          cases b.exactValue with
          | none => rfl
          | some z => simp [Op.exact, Int.mul_assoc]
    case isFalse => rfl

end Written

end InterviewQuestions.Library.Arithmetic

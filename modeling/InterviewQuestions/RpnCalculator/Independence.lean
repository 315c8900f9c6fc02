import InterviewQuestions.Library.Arithmetic
import InterviewQuestions.RpnCalculator.StackEvaluator

/-! The stack of `solution.c` stays from one call of `eval_expr` to the next, and a line can find
what another one has left there. -/
namespace InterviewQuestions.RpnCalculator

open Library Scanf

open Arithmetic (int)

inductive Kind where
  | value
  | operator

/-- The kinds of the tokens from an offset on, as the loop finds them. -/
def kinds (expr : List UInt8) : ℕ → ℕ → List Kind
  | 0, _ => []
  | fuel + 1, offset =>
      match scanValue (expr.drop offset) with
      | some (_, offsetIncr) => .value :: kinds expr fuel (offset + offsetIncr)
      | none =>
          match scanChar (expr.drop offset) with
          | some (_, offsetIncr) => .operator :: kinds expr fuel (offset + offsetIncr)
          | none => []

def lineKinds (expr : List UInt8) : List Kind := kinds expr (expr.length + 1) 0

/-- How many values of its own a line has in the end, when no operator takes any other. -/
def ends : List Kind → ℕ → Option ℕ
  | [], n => some n
  | .value :: ks, n => ends ks (n + 1)
  | .operator :: ks, n => if 2 ≤ n then ends ks (n - 1) else none

/-- The largest number of values of its own that a line has at a time. -/
def peak : List Kind → ℕ → ℕ
  | [], n => n
  | .value :: ks, n => peak ks (n + 1)
  | .operator :: ks, n => max n (peak ks (n - 1))

/-- How many values a line leaves, when the last one has been returned. -/
def leftover (expr : List UInt8) : ℕ := ((ends (lineKinds expr) 0).getD 0) - 1

/-- The second line takes only what it has put on the stack itself, and there is room above what the
first one leaves. -/
def Independent (line1 line2 : List UInt8) : Prop :=
  (∃ own, ends (lineKinds line2) 0 = some own ∧ 0 < own) ∧
    leftover line1 + peak (lineKinds line2) 0 ≤ stackSz

/-- The loop ends with the second stack, and what it does with each token succeeds. -/
inductive Evaluates (expr : List UInt8) : ℕ → List Kind → List ℤ → List ℤ → Prop
  | done {offset : ℕ} {stack : List ℤ} (hvalue : scanValue (expr.drop offset) = none)
      (hchar : scanChar (expr.drop offset) = none) : Evaluates expr offset [] stack stack
  | value {offset incr : ℕ} {stack res : List ℤ} {ks : List Kind} {found val : ℤ}
      (hvalue : scanValue (expr.drop offset) = some (found, incr)) (hval : int found = some val)
      (hroom : stack.length < stackSz) (hoffset : (int (offset + incr : ℕ)).isSome)
      (h : Evaluates expr (offset + incr) ks (val :: stack) res) :
      Evaluates expr offset (.value :: ks) stack res
  | operator {offset incr : ℕ} {stack res : List ℤ} {ks : List Kind} {op : UInt8}
      {left right val : ℤ} (hvalue : scanValue (expr.drop offset) = none)
      (hchar : scanChar (expr.drop offset) = some (op, incr))
      (hval : compute op left right = some val) (hroom : stack.length < stackSz)
      (hoffset : (int (offset + incr : ℕ)).isSome)
      (h : Evaluates expr (offset + incr) ks (val :: stack) res) :
      Evaluates expr offset (.operator :: ks) (right :: left :: stack) res

variable {expr line1 line2 : List UInt8} {stack res top below below' : List ℤ} {ks : List Kind}
  {fuel offset n m : ℕ} {v : ℤ}

theorem push_eq_some : push stack v = some res ↔ stack.length < stackSz ∧ v :: stack = res := by
  unfold push
  split <;> simp_all

theorem pop_eq_some : pop stack = some (v, res) ↔ stack = v :: res := by
  cases stack <;> simp [pop]

theorem evalLoop_iff : evalLoop expr fuel stack offset = some res ↔
    (kinds expr fuel offset).length < fuel ∧
      Evaluates expr offset (kinds expr fuel offset) stack res := by
  induction fuel generalizing stack offset with
  | zero => simp [evalLoop]
  | succ fuel ih =>
    rw [evalLoop, kinds]
    cases hvalue : scanValue (expr.drop offset) with
    | some found =>
      obtain ⟨found, incr⟩ := found
      simp only [Option.bind_eq_bind, Option.bind_eq_some_iff, push_eq_some]
      constructor
      · rintro ⟨val, hval, _, ⟨hroom, rfl⟩, z, hoffset, hloop⟩
        obtain ⟨hlen, hrun⟩ := ih.mp hloop
        exact ⟨Nat.succ_lt_succ hlen, .value hvalue hval hroom
          (Option.isSome_of_eq_some hoffset) hrun⟩
      · rintro ⟨hlen, hrun⟩
        cases hrun with
        | value hvalue' hval hroom hoffset hrun =>
          rw [hvalue] at hvalue'
          cases hvalue'
          obtain ⟨z, hz⟩ := Option.isSome_iff_exists.mp hoffset
          exact ⟨_, hval, _, ⟨hroom, rfl⟩, z, hz, ih.mpr ⟨Nat.lt_of_succ_lt_succ hlen, hrun⟩⟩
    | none =>
      cases hchar : scanChar (expr.drop offset) with
      | some found =>
        obtain ⟨op, incr⟩ := found
        simp only [Option.bind_eq_bind, Option.bind_eq_some_iff, push_eq_some]
        constructor
        · rintro ⟨⟨right, rest⟩, hright, ⟨left, below⟩, hleft, val, hval, _, ⟨hroom, rfl⟩, z,
            hoffset, hloop⟩
          obtain rfl := pop_eq_some.mp hright
          obtain rfl := pop_eq_some.mp hleft
          obtain ⟨hlen, hrun⟩ := ih.mp hloop
          exact ⟨Nat.succ_lt_succ hlen, .operator hvalue hchar hval hroom
            (Option.isSome_of_eq_some hoffset) hrun⟩
        · rintro ⟨hlen, hrun⟩
          cases hrun with
          | operator _ hchar' hval hroom hoffset hrun =>
            rw [hchar] at hchar'
            cases hchar'
            obtain ⟨z, hz⟩ := Option.isSome_iff_exists.mp hoffset
            exact ⟨_, rfl, _, rfl, _, hval, _, ⟨hroom, rfl⟩, z, hz,
              ih.mpr ⟨Nat.lt_of_succ_lt_succ hlen, hrun⟩⟩
      | none =>
        constructor
        · rintro ⟨⟩
          exact ⟨Nat.succ_pos fuel, .done hvalue hchar⟩
        · rintro ⟨-, hrun⟩
          cases hrun
          rfl

theorem le_peak (ks : List Kind) (n : ℕ) : n ≤ peak ks n := by
  induction ks generalizing n with
  | nil => exact Nat.le_refl n
  | cons k ks ih =>
    cases k with
    | value => exact Nat.le_of_succ_le (ih (n + 1))
    | operator => exact Nat.le_max_left n _

theorem ends_le_peak (h : ends ks n = some m) : m ≤ peak ks n := by
  induction ks generalizing n with
  | nil =>
    cases h
    exact Nat.le_refl _
  | cons k ks ih =>
    cases k with
    | value => exact ih h
    | operator =>
      rw [ends] at h
      split at h
      · exact (ih h).trans (Nat.le_max_right n _)
      · cases h

theorem Evaluates.ends (h : Evaluates expr offset ks stack res) :
    ends ks stack.length = some res.length := by
  induction h with
  | done => rfl
  | value _ _ _ _ _ ih => exact ih
  | operator _ _ _ _ _ _ ih => exact (if_pos (by simp)).trans ih

/-- An operator finds both operands among the values of its own. -/
theorem exists_operands {right left : ℤ} (hstack : right :: left :: stack = top ++ below)
    (hends : RpnCalculator.ends (.operator :: ks) top.length = some n) :
    ∃ rest, top = right :: left :: rest ∧ stack = rest ++ below ∧
      RpnCalculator.ends ks (rest.length + 1) = some n := by
  rw [RpnCalculator.ends] at hends
  split at hends
  · next htwo =>
    match top, htwo, hstack, hends with
    | r :: l :: rest, _, hstack, hends =>
      simp only [List.cons_append, List.cons.injEq] at hstack
      obtain ⟨rfl, rfl, rfl⟩ := hstack
      exact ⟨rest, rfl, rfl, hends⟩
  · cases hends

/-- What is below the line's own values may be anything that leaves room. -/
theorem Evaluates.retain (h : Evaluates expr offset ks stack res) (hstack : stack = top ++ below)
    (hends : RpnCalculator.ends ks top.length = some n)
    (hroom : below'.length + peak ks top.length ≤ stackSz) :
    ∃ own, res = own ++ below ∧ own.length = n ∧
      Evaluates expr offset ks (top ++ below') (own ++ below') := by
  induction h generalizing top with
  | done hvalue hchar =>
    cases hends
    exact ⟨top, hstack, rfl, .done hvalue hchar⟩
  | @value _ _ _ _ ks _ val hvalue hval _ hoffset _ ih =>
    have hpeak := le_peak ks (top.length + 1)
    rw [peak] at hroom
    obtain ⟨own, hres, hlen, hrun⟩ := @ih (val :: top) (congrArg (val :: ·) hstack) hends hroom
    refine ⟨own, hres, hlen, .value hvalue hval ?_ hoffset hrun⟩
    rw [List.length_append]
    omega
  | @operator _ _ _ _ ks _ _ _ val hvalue hchar hval _ hoffset _ ih =>
    obtain ⟨rest, rfl, rfl, hends'⟩ := exists_operands hstack hends
    rw [peak, List.length_cons, List.length_cons, Nat.add_sub_cancel] at hroom
    have hrest : below'.length + peak ks (val :: rest).length ≤ stackSz := by
      rw [List.length_cons]
      omega
    obtain ⟨own, hres, hlen, hrun⟩ := @ih (val :: rest) rfl hends' hrest
    refine ⟨own, hres, hlen, .operator hvalue hchar hval ?_ hoffset hrun⟩
    change (rest ++ below').length < stackSz
    rw [List.length_append]
    omega

theorem Evaluates.room (h : Evaluates expr offset ks stack res) (hstack : stack = top ++ below)
    (hlen : stack.length ≤ stackSz) (hends : RpnCalculator.ends ks top.length = some n) :
    below.length + peak ks top.length ≤ stackSz := by
  induction h generalizing top with
  | done =>
    rwa [hstack, List.length_append, Nat.add_comm] at hlen
  | @value _ _ _ _ _ _ val _ _ hroom _ _ ih =>
    exact @ih (val :: top) (congrArg (val :: ·) hstack) hroom hends
  | @operator _ _ _ _ _ _ _ _ val _ _ _ hroom _ _ ih =>
    obtain ⟨rest, rfl, rfl, hends'⟩ := exists_operands hstack hends
    have hpeak := @ih (val :: rest) rfl hroom hends'
    rw [List.length_cons, List.length_cons, List.length_append] at hlen
    rw [List.length_cons] at hpeak
    rw [peak, List.length_cons, List.length_cons, Nat.add_sub_cancel]
    omega

theorem evalExpr_iff : evalExpr stack expr = some (v, res) ↔
    (lineKinds expr).length < expr.length + 1 ∧
      Evaluates expr 0 (lineKinds expr) stack (v :: res) := by
  rw [evalExpr, lineKinds, ← evalLoop_iff]
  simp only [Option.bind_eq_bind, Option.bind_eq_some_iff, pop_eq_some, exists_eq_right]

/-- On another stack with room the value is the same. -/
theorem evalExpr_retain (h : evalExpr below expr = some (v, res))
    (hown : ends (lineKinds expr) 0 = some n) (hpos : 0 < n)
    (hroom : below'.length + peak (lineKinds expr) 0 ≤ stackSz) :
    ∃ res', evalExpr below' expr = some (v, res') := by
  obtain ⟨hlen, hrun⟩ := evalExpr_iff.mp h
  obtain ⟨own, hres, hown', hrun'⟩ := hrun.retain (List.nil_append below).symm hown hroom
  obtain ⟨w, own, rfl⟩ := List.exists_cons_of_length_pos (hown' ▸ hpos)
  obtain ⟨rfl, -⟩ := List.cons.inj hres
  exact ⟨own ++ below', evalExpr_iff.mpr ⟨hlen, hrun'⟩⟩

section Lines

variable {stack1 : List ℤ} (h1 : evalExpr [] line1 = some (v, stack1))

include h1

theorem leftover_eq : leftover line1 = stack1.length := by
  rw [leftover, ← List.length_nil (α := ℤ), (evalExpr_iff.mp h1).2.ends]
  rfl

theorem length_le : stack1.length ≤ stackSz := by
  have hends := (evalExpr_iff.mp h1).2.ends
  have hroom := (evalExpr_iff.mp h1).2.room (List.append_nil []).symm (Nat.zero_le _) hends
  have hpeak := ends_le_peak hends
  rw [List.length_cons] at hpeak
  omega

/-- A line that is evaluated on its own and after the other one. -/
theorem independent_of_both {r r' : ℤ × List ℤ} (hs : evalExpr [] line2 = some r)
    (hs' : evalExpr stack1 line2 = some r') : Independent line1 line2 := by
  have hown := (evalExpr_iff.mp hs).2.ends
  refine ⟨⟨_, hown, Nat.succ_pos _⟩, ?_⟩
  rw [leftover_eq h1]
  exact (evalExpr_iff.mp hs').2.room (List.nil_append stack1).symm (length_le h1) hown

theorem value_eq_of_independent (h : Independent line1 line2)
    (h2 : (evalExpr [] line2).isSome ∨ (evalExpr stack1 line2).isSome) :
    (evalExpr stack1 line2).map Prod.fst = (evalExpr [] line2).map Prod.fst := by
  obtain ⟨⟨own, hown, hpos⟩, hroom⟩ := h
  rw [leftover_eq h1] at hroom
  have hroom' : ([] : List ℤ).length + peak (lineKinds line2) 0 ≤ stackSz := by
    rw [List.length_nil]
    omega
  rcases h2 with h2 | h2
  · obtain ⟨⟨w, s⟩, hs⟩ := Option.isSome_iff_exists.mp h2
    obtain ⟨s', hs'⟩ := evalExpr_retain hs hown hpos hroom
    rw [hs, hs']
    rfl
  · obtain ⟨⟨w, s⟩, hs⟩ := Option.isSome_iff_exists.mp h2
    obtain ⟨s', hs'⟩ := evalExpr_retain hs hown hpos hroom'
    rw [hs, hs']
    rfl

/-- Lines that are evaluated in both situations give the same result. -/
theorem value_eq_of_both (hs : (evalExpr [] line2).isSome) (hs' : (evalExpr stack1 line2).isSome) :
    (evalExpr stack1 line2).map Prod.fst = (evalExpr [] line2).map Prod.fst := by
  obtain ⟨r, hr⟩ := Option.isSome_iff_exists.mp hs
  obtain ⟨r', hr'⟩ := Option.isSome_iff_exists.mp hs'
  exact value_eq_of_independent h1 (independent_of_both h1 hr hr') (.inl hs)

/-- The lines that give the same result with and without what the first one leaves. -/
theorem evalExpr_independent_iff
    (h2 : (evalExpr [] line2).isSome ∨ (evalExpr stack1 line2).isSome) :
    (evalExpr stack1 line2).map Prod.fst = (evalExpr [] line2).map Prod.fst ↔
      Independent line1 line2 := by
  refine ⟨fun heq => ?_, fun h => value_eq_of_independent h1 h h2⟩
  have hboth : (evalExpr [] line2).isSome ∧ (evalExpr stack1 line2).isSome := by
    have hsame := congrArg Option.isSome heq
    rw [Option.isSome_map, Option.isSome_map] at hsame
    rcases h2 with h2 | h2
    · exact ⟨h2, hsame.trans h2⟩
    · exact ⟨hsame.symm.trans h2, h2⟩
  obtain ⟨r, hr⟩ := Option.isSome_iff_exists.mp hboth.1
  obtain ⟨r', hr'⟩ := Option.isSome_iff_exists.mp hboth.2
  exact independent_of_both h1 hr hr'

end Lines

/-- `1 2` and `3 +`: the second line adds the number that the first one has left. -/
theorem evalExpr_dependent :
    evalExpr [] [49, 32, 50] = some (2, [1]) ∧ evalExpr [1] [51, 32, 43] = some (4, []) ∧
      evalExpr [] [51, 32, 43] = none := by
  decide

/-- `1 2` and `3`. -/
theorem evalExpr_independent_iff_three :
    (evalExpr [1] [51]).map Prod.fst = (evalExpr [] [51]).map Prod.fst ↔
      Independent [49, 32, 50] [51] :=
  evalExpr_independent_iff (v := 2) (by decide) (.inl (by decide))

end InterviewQuestions.RpnCalculator

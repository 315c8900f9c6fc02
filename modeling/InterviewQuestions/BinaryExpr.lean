import InterviewQuestions.Library.Grouping
import Mathlib.Data.Int.Notation
import Mathlib.Data.Nat.Notation
import Mathlib.Data.Set.Card
import Mathlib.Tactic.Ring

/-! `recursion_dp/binary_expr/solution.c`. There is no result where the assertion of `as_last`
fails. The `int` that is expected is 0 or 1 in all calls but the first. -/
namespace InterviewQuestions.BinaryExpr

def isOperator (c : UInt8) : Bool := c = 94 || c = 124 || c = 38

/-- `valid_evals` is a parameter here. -/
def asLast (validEvals : List UInt8 → ℤ → Option UInt32) (expr : List UInt8) (opI : ℕ)
    (expected : ℤ) : Option UInt32 := do
  let left := expr.take opI
  let right := expr.drop (opI + 1)
  if expr[opI]? = some 94 then
    if expected ≠ 0 then
      return (← validEvals left 1) * (← validEvals right 0) +
        (← validEvals left 0) * (← validEvals right 1)
    else
      return (← validEvals left 1) * (← validEvals right 1) +
        (← validEvals left 0) * (← validEvals right 0)
  else if expr[opI]? = some 124 then
    if expected ≠ 0 then
      return (← validEvals left 1) * (← validEvals right 0) +
        (← validEvals left 0) * (← validEvals right 1) +
        (← validEvals left 1) * (← validEvals right 1)
    else return (← validEvals left 0) * (← validEvals right 0)
  else if expr[opI]? = some 38 then
    if expected ≠ 0 then return (← validEvals left 1) * (← validEvals right 1)
    else
      return (← validEvals left 0) * (← validEvals right 1) +
        (← validEvals left 1) * (← validEvals right 0) +
        (← validEvals left 0) * (← validEvals right 0)
  else none

/-- The recursion, which is never deeper than the expression is long. -/
def validEvalsAux : ℕ → List UInt8 → ℤ → Option UInt32
  | 0, _, _ => none
  | fuel + 1, expr, expected =>
      if expr = [48] ∨ expr = [49] then
        some (if expr.head?.map (fun c => (c.toNat : ℤ)) = some (expected + 48) then 1 else 0)
      else
        (List.range expr.length).foldlM (fun res i =>
          if (expr[i]?).any isOperator then do
            let n ← asLast (validEvalsAux fuel) expr i expected
            return res + n
          else some res) 0

def validEvals (expr : List UInt8) (expected : ℤ) : Option UInt32 :=
  validEvalsAux (expr.length + 1) expr expected

/-! `valid_evals` counts the groupings of an expression by their value. -/

open Library Grouping

inductive Op where
  | xor
  | or
  | and
deriving DecidableEq, Repr

def Op.char : Op → UInt8
  | xor => 94
  | or => 124
  | and => 38

def Op.apply : Op → Bool → Bool → Bool
  | xor, a, b => a != b
  | or, a, b => a || b
  | and, a, b => a && b

def symbol (b : Bool) : UInt8 := if b then 49 else 48

/-- A symbol and behind it operators, each with the symbol that follows. -/
def text (s : Bool) (steps : List (Op × Bool)) : List UInt8 :=
  symbol s :: steps.flatMap fun p => [p.1.char, symbol p.2]

def value : Grouping Bool Op → Bool
  | .leaf s => s
  | .node op l r => op.apply (value l) (value r)

variable {s b : Bool} {op : Op} {steps done more : List (Op × Bool)} {fuel : ℕ}
  {rec : List UInt8 → ℤ → Option UInt32}
  {lv rv : Bool → ℕ}

/-! ## The truth table of the last operator -/

def withValue (b : Bool) (ts : List (Grouping Bool Op)) : ℕ := ts.countP fun t => value t == b

/-- In how many ways the operator gives `b` when its sides take their values in `l` and `r` ways. -/
def pairs (op : Op) (b : Bool) (l r : Bool → ℕ) : ℕ :=
  let term x y := if op.apply x y = b then l x * r y else 0
  term true true + term true false + term false true + term false false

theorem withValue_cons (b : Bool) (t : Grouping Bool Op) (ts : List (Grouping Bool Op)) :
    withValue b (t :: ts) = withValue b ts + if value t = b then 1 else 0 := by
  simp [withValue, List.countP_cons]

theorem withValue_true_add_false (ts : List (Grouping Bool Op)) :
    withValue true ts + withValue false ts = ts.length := by
  induction ts with
  | nil => rfl
  | cons t ts ih =>
    rw [withValue_cons, withValue_cons, List.length_cons]
    cases value t <;> simp <;> omega

theorem countP_value (f : Bool → Bool) (ts : List (Grouping Bool Op)) :
    ts.countP (fun t => f (value t)) =
      (if f true then withValue true ts else 0) + (if f false then withValue false ts else 0) := by
  induction ts with
  | nil => simp [withValue]
  | cons t ts ih =>
    rw [List.countP_cons, ih, withValue_cons, withValue_cons]
    cases value t <;> cases f true <;> cases f false <;> simp <;> omega

theorem withValue_node (op : Op) (b : Bool) (ls rs : List (Grouping Bool Op)) :
    withValue b (ls.flatMap fun l => rs.map fun r => node op l r) =
      pairs op b (fun x => withValue x ls) fun y => withValue y rs := by
  induction ls with
  | nil => simp [withValue, pairs]
  | cons l ls ih =>
    have hl : withValue b (rs.map fun r => node op l r) =
        rs.countP fun r => op.apply (value l) (value r) == b := by
      rw [withValue, List.countP_map]
      rfl
    have happend : withValue b ((l :: ls).flatMap fun l => rs.map fun r => node op l r) =
        withValue b (rs.map fun r => node op l r) +
          withValue b (ls.flatMap fun l => rs.map fun r => node op l r) := by
      rw [List.flatMap_cons, withValue, List.countP_append]
      rfl
    rw [happend, ih, hl, countP_value fun y => op.apply (value l) y == b]
    simp only [pairs, withValue_cons]
    cases value l <;> cases op <;> cases b <;> simp [Op.apply] <;> ring

/-! ## One operator of the text -/

theorem length_text (s : Bool) (steps : List (Op × Bool)) :
    (text s steps).length = 1 + 2 * steps.length := by
  induction steps with
  | nil => rfl
  | cons p steps ih =>
    simp only [text, List.flatMap_cons, List.length_cons, List.length_append,
      List.length_nil] at ih ⊢
    omega

theorem text_append (s x : Bool) (op : Op) (done more : List (Op × Bool)) :
    text s (done ++ (op, x) :: more) = text s done ++ op.char :: text x more := by
  simp [text]

@[simp] theorem isOperator_char (op : Op) : isOperator op.char = true := by
  cases op <;> rfl

@[simp] theorem isOperator_symbol (b : Bool) : isOperator (symbol b) = false := by
  cases b <;> rfl

theorem getElem?_operator (s x : Bool) (op : Op) (done more : List (Op × Bool)) :
    (text s (done ++ (op, x) :: more))[1 + 2 * done.length]? = some op.char := by
  rw [text_append, ← length_text s done, List.getElem?_append_right le_rfl, Nat.sub_self]
  rfl

theorem getElem?_symbol (s x : Bool) (op : Op) (done more : List (Op × Bool)) :
    (text s (done ++ (op, x) :: more))[1 + 2 * done.length + 1]? = some (symbol x) := by
  rw [text_append, ← length_text s done, List.getElem?_append_right (Nat.le_add_right _ 1),
    Nat.add_sub_cancel_left]
  rfl

theorem asLast_text {x : Bool}
    (hl : ∀ b : Bool, rec (text s done) b.toNat = some (UInt32.ofNat (lv b)))
    (hr : ∀ b : Bool, rec (text x more) b.toNat = some (UInt32.ofNat (rv b))) (b : Bool) :
    asLast rec (text s (done ++ (op, x) :: more)) (1 + 2 * done.length) b.toNat =
      some (UInt32.ofNat (pairs op b lv rv)) := by
  have hlen : (text s done).length = 1 + 2 * done.length := length_text s done
  have hop := getElem?_operator s x op done more
  rw [text_append] at hop
  have hleft : (text s done ++ op.char :: text x more).take (1 + 2 * done.length) =
      text s done := by
    rw [← hlen, List.take_left]
  have hright : (text s done ++ op.char :: text x more).drop (1 + 2 * done.length + 1) =
      text x more := by
    rw [← hlen, ← List.drop_drop, List.drop_left]
    rfl
  have hl0 : rec (text s done) 0 = some (UInt32.ofNat (lv false)) := hl false
  have hl1 : rec (text s done) 1 = some (UInt32.ofNat (lv true)) := hl true
  have hr0 : rec (text x more) 0 = some (UInt32.ofNat (rv false)) := hr false
  have hr1 : rec (text x more) 1 = some (UInt32.ofNat (rv true)) := hr true
  rw [text_append, asLast, hop, hleft, hright, hl0, hl1, hr0, hr1]
  cases op <;> cases b <;> simp [Op.char, pairs, Op.apply] <;> grind

/-! ## The loop over the text -/

/-- In how many ways the expression gives `b`. -/
def ways (fuel : ℕ) (b s : Bool) (steps : List (Op × Bool)) : ℕ := withValue b (all fuel s steps)

/-- Those of them with the last operator where the steps are split. -/
def lastWays (fuel : ℕ) (b s : Bool) (p : List (Op × Bool) × (Op × Bool) × List (Op × Bool)) : ℕ :=
  pairs p.2.1.1 b (fun x => ways fuel x s p.1) fun y => ways fuel y p.2.1.2 p.2.2

theorem ways_cons (fuel : ℕ) (b s : Bool) (p : Op × Bool) (steps : List (Op × Bool)) :
    ways (fuel + 1) b s (p :: steps) = ((splits (p :: steps)).map (lastWays fuel b s)).sum := by
  rw [ways, all, withValue, List.countP_flatMap]
  refine congrArg List.sum (List.map_congr_left fun q _ => ?_)
  exact withValue_node _ b _ _

/-- The body of the loop of `valid_evals`. -/
def addLast (rec : List UInt8 → ℤ → Option UInt32) (expr : List UInt8) (expected : ℤ) (res : UInt32)
    (i : ℕ) : Option UInt32 :=
  if (expr[i]?).any isOperator then do
    let n ← asLast rec expr i expected
    return res + n
  else some res

/-- The loop from one operator on, by induction on the operators that are left: every second
character is one. -/
theorem foldlM_addLast {count : List (Op × Bool) × (Op × Bool) × List (Op × Bool) → ℕ}
    (hlast : ∀ p ∈ splits steps,
      asLast rec (text s steps) (1 + 2 * p.1.length) b.toNat = some (UInt32.ofNat (count p)))
    (hsteps : steps = done ++ more) (n : ℕ) :
    (List.range' (1 + 2 * done.length) (2 * more.length)).foldlM
        (addLast rec (text s steps) b.toNat) (UInt32.ofNat n) =
      some (UInt32.ofNat (n + ((splits more).map fun p => count (done ++ p.1, p.2)).sum)) := by
  induction more generalizing done n with
  | nil => simp [splits]
  | cons p more ih =>
    obtain ⟨op, x⟩ := p
    have hthis := hlast (done, (op, x), more) (mem_splits.mpr hsteps)
    have hfirst : addLast rec (text s steps) b.toNat (UInt32.ofNat n) (1 + 2 * done.length) =
        some (UInt32.ofNat (n + count (done, (op, x), more))) := by
      rw [addLast, hthis, hsteps, getElem?_operator]
      simp
    have hsecond (res : UInt32) :
        addLast rec (text s steps) b.toNat res (1 + 2 * done.length + 1) = some res := by
      rw [addLast, hsteps, getElem?_symbol]
      simp
    have hrange : List.range' (1 + 2 * done.length) (2 * ((op, x) :: more).length) =
        (1 + 2 * done.length) :: (1 + 2 * done.length + 1) ::
          List.range' (1 + 2 * (done ++ [(op, x)]).length) (2 * more.length) := by
      rw [List.length_cons, Nat.mul_succ, List.range'_succ, List.range'_succ, List.length_append]
      rfl
    have hsum : (splits ((op, x) :: more)).map (fun p => count (done ++ p.1, p.2)) =
        count (done, (op, x), more) ::
          (splits more).map fun p => count ((done ++ [(op, x)]) ++ p.1, p.2) := by
      simp [splits, Function.comp_def]
    have hrest : steps = (done ++ [(op, x)]) ++ more := by simp [hsteps]
    rw [hrange, List.foldlM_cons, hfirst, Option.bind_eq_bind, Option.bind_some, List.foldlM_cons,
      hsecond, Option.bind_eq_bind, Option.bind_some, ih hrest, hsum, List.sum_cons, Nat.add_assoc]

/-! ## The whole expression -/

theorem text_eq_singleton : text s steps = [48] ∨ text s steps = [49] ↔ steps = [] := by
  constructor
  · intro h
    have hlen : (text s steps).length = 1 := by rcases h with h | h <;> rw [h] <;> rfl
    rw [length_text] at hlen
    exact List.length_eq_zero_iff.mp (by omega)
  · rintro rfl
    cases s
    · exact .inl rfl
    · exact .inr rfl

theorem validEvalsAux_text (hfuel : 2 * steps.length < fuel) (b : Bool) :
    validEvalsAux fuel (text s steps) b.toNat = some (UInt32.ofNat (ways fuel b s steps)) := by
  induction fuel generalizing s steps b with
  | zero => cases hfuel
  | succ fuel ih =>
    cases steps with
    | nil =>
      rw [validEvalsAux, if_pos (text_eq_singleton.mpr rfl)]
      cases s <;> cases b <;> rfl
    | cons p steps =>
      have hlast (q) (hq : q ∈ splits (p :: steps)) :
          asLast (validEvalsAux fuel) (text s (p :: steps)) (1 + 2 * q.1.length) b.toNat =
            some (UInt32.ofNat (lastWays fuel b s q)) := by
        obtain ⟨front, ⟨op, x⟩, back⟩ := q
        obtain ⟨hfront, hback⟩ := length_of_mem_splits hq
        simp only [List.length_cons] at hfront hback hfuel
        rw [mem_splits.mp hq]
        exact asLast_text (fun y => ih (by omega) y) (fun y => ih (by omega) y) b
      have hfirst : addLast (validEvalsAux fuel) (text s (p :: steps)) b.toNat 0 0 = some 0 := by
        simp [addLast, text]
      have hrange : List.range (text s (p :: steps)).length =
          0 :: List.range' (1 + 2 * ([] : List (Op × Bool)).length) (2 * (p :: steps).length) := by
        rw [length_text, List.range_eq_range', Nat.add_comm, List.range'_succ]
        rfl
      have hloop := foldlM_addLast hlast (List.nil_append (p :: steps)).symm 0
      rw [validEvalsAux, if_neg (by simp [text_eq_singleton]), hrange, List.foldlM_cons]
      show (addLast (validEvalsAux fuel) (text s (p :: steps)) b.toNat 0 0 >>= fun res =>
        List.foldlM (addLast (validEvalsAux fuel) (text s (p :: steps)) b.toNat) res _) = _
      rw [hfirst, Option.bind_eq_bind, Option.bind_some, ways_cons]
      exact hloop.trans (by simp)

/-- The groupings of the expression that give `b`. -/
def groupings (b s : Bool) (steps : List (Op × Bool)) : Set (Grouping Bool Op) :=
  {t | t.first = s ∧ t.rest = steps ∧ value t = b}

theorem ncard_groupings (hfuel : steps.length < fuel) (b : Bool) :
    (groupings b s steps).ncard = ways fuel b s steps := by
  have hnodup : ((all fuel s steps).filter fun t => value t == b).Nodup :=
    (nodup_all fuel s steps hfuel).filter _
  have hset : groupings b s steps =
      ↑((all fuel s steps).filter fun t => value t == b).toFinset := by
    ext t
    simp [groupings, mem_all hfuel, and_assoc]
  rw [hset, Set.ncard_coe_finset, List.toFinset_card_of_nodup hnodup, ways, withValue,
    List.countP_eq_length_filter]

theorem validEvals_text (b s : Bool) (steps : List (Op × Bool)) :
    validEvals (text s steps) b.toNat = some (UInt32.ofNat (groupings b s steps).ncard) := by
  have hfuel : steps.length < 1 + 2 * steps.length + 1 := by omega
  rw [validEvals, length_text, ncard_groupings hfuel]
  exact validEvalsAux_text (by omega) b

/-- `valid_evals` is the number of groupings of the expression with the expected value, and for both
values it is the Catalan number, modulo `2 ^ 32`. -/
theorem validEvals_counts (s : Bool) (steps : List (Op × Bool)) :
    (∀ b : Bool, validEvals (text s steps) b.toNat =
      some (UInt32.ofNat (groupings b s steps).ncard)) ∧
    ∃ zero one, validEvals (text s steps) 0 = some zero ∧ validEvals (text s steps) 1 = some one ∧
      zero + one = UInt32.ofNat (catalan steps.length) := by
  refine ⟨fun b => validEvals_text b s steps, _, _, validEvals_text false s steps,
    validEvals_text true s steps, ?_⟩
  have hfuel : steps.length < steps.length + 1 := Nat.lt_succ_self _
  rw [← UInt32.ofNat_add, ncard_groupings hfuel, ncard_groupings hfuel, Nat.add_comm, ways, ways,
    withValue_true_add_false, length_all _ s steps hfuel]

end InterviewQuestions.BinaryExpr

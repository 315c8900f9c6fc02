import InterviewQuestions.Library.Descent
import InterviewQuestions.Library.Regrouping

/-! The evaluator of `recursion_dp/redundant_parens/solution.c`, which also marks the
parentheses that can go. There is no result when `assert` or `sscanf` fails, when a division
is by zero and when a value is no `int`. -/
namespace InterviewQuestions.RedundantParens

open Library Library.Arithmetic Library.Descent

/-- The value of the operator in the `enum`. -/
def enumValue : Op → ℕ
  | .add => 0
  | .sub => 1
  | .mul => 2
  | .div => 3

/-- `struct ops_list` -/
structure OpsList where
  seen : Op → Bool
  res : ℤ

def charToOp (c : UInt8) : Option Op :=
  if c = 43 then some .add
  else if c = 45 then some .sub
  else if c = 42 then some .mul
  else if c = 47 then some .div
  else none

def higherPrio (op1 op2 : Op) : Bool :=
  enumValue .mul ≤ enumValue op1 && enumValue op2 ≤ enumValue .sub

def mergeSeen (dest other : Op → Bool) : Op → Bool := fun op => dest op || other op

/-- `memset(&seen, 0, sizeof(seen))` -/
def noneSeen : Op → Bool := fun _ => false

/-- The test of `redundant_parens` on the operators seen inside and those on both sides. -/
def redundant (seen : Op → Bool) (opL opR : Option Op) : Bool :=
  match [Op.add, .sub, .mul, .div].find? seen with
  | none => true
  | some i =>
      !(opL.any (higherPrio · i) || opR.any (higherPrio · i) ||
        (opL = some .sub && enumValue i ≤ enumValue .sub) || opL = some .div)

def redundantParens (exprStr : List UInt8) (l r : ℕ) (ops : OpsList) : Bool :=
  let opR := charToOp (char exprStr (r + 1))
  let opL := if 0 < l then charToOp (char exprStr (l - 1)) else none
  redundant ops.seen opL opR

/-- The computations that write to `ign`. -/
abbrev Marking := StateT (List Bool) Option

/-- What the functions of the parser do with numbers, operators and parentheses. -/
def marker : Actions Marking OpsList where
  number input := fun ign => (readInt input).map fun read => ((⟨noneSeen, read.1⟩, read.2), ign)
  apply op first second := fun ign => (op.apply first.res second.res).map fun res =>
    (⟨Function.update (mergeSeen first.seen second.seen) op true, res⟩, ign)
  paren exprStr l r ops := fun ign =>
    if redundantParens exprStr l r ops then some (ops, (ign.set l true).set r true)
    else some (⟨noneSeen, ops.res⟩, ign)
  fail := fun _ => none

section Functions

variable (exprStr : List UInt8)

def expr : ℕ → ℕ → Marking (OpsList × ℕ) := Descent.expr marker exprStr

def exprR : ℕ → ℕ → OpsList → Marking (OpsList × ℕ) := Descent.exprR marker exprStr

def term : ℕ → ℕ → Marking (OpsList × ℕ) := Descent.term marker exprStr

def termR : ℕ → ℕ → OpsList → Marking (OpsList × ℕ) := Descent.termR marker exprStr

def factor : ℕ → ℕ → Marking (OpsList × ℕ) := Descent.factor marker exprStr

/-- The characters that are not to be ignored. -/
def newExpr (ignore : List Bool) : List UInt8 :=
  ((exprStr.zip ignore).filter fun p => !p.2).map Prod.fst

/-- The new string and `out_value`. -/
def evalExpr : Option (List UInt8 × ℤ) :=
  let ignore := List.replicate exprStr.length false
  (expr exprStr (4 * exprStr.length + 4) 0 ignore).map fun parsed =>
    (newExpr exprStr parsed.2, parsed.1.1.res)

end Functions

end InterviewQuestions.RedundantParens

/-! Which parentheses go, on the expression itself, and what is left. `opL` and `opR` are the
operators on both sides of an expression. -/
namespace InterviewQuestions.RedundantParens

open Library Arithmetic Written

/-- The expression that is left. -/
def shorten : Option Op → Option Op → Written → Written
  | _, _, .num digits => .num digits
  | opL, opR, .paren e =>
      if redundant (shorten none none e).tops opL opR then shorten none none e
      else .paren (shorten none none e)
  | opL, opR, .bin op l r => graft op (shorten opL (some op) l) (shorten (some op) opR r)

/-- The characters that are ignored. -/
def marks : Option Op → Option Op → Written → List Bool
  | _, _, .num digits => List.replicate digits.length false
  | opL, opR, .paren e =>
      let gone := redundant (shorten none none e).tops opL opR
      gone :: marks none none e ++ [gone]
  | opL, opR, .bin op l r => marks opL (some op) l ++ false :: marks (some op) opR r

variable {opL opR : Option Op} {seen : Op → Bool} {e : Written} {level : ℕ}
  {numeral : List UInt8 → Prop}

@[simp] theorem length_marks (opL opR : Option Op) (e : Written) :
    (marks opL opR e).length = e.text.length := by
  induction e generalizing opL opR with
  | num ds => exact List.length_replicate
  | paren e ih => simp [marks, text, ih]
  | bin op l r ihl ihr => simp [marks, text, ihl, ihr]

theorem newExpr_append {s t : List UInt8} {ign ign' : List Bool} (h : s.length = ign.length) :
    newExpr (s ++ t) (ign ++ ign') = newExpr s ign ++ newExpr t ign' := by
  rw [newExpr, List.zip_append h, List.filter_append, List.map_append, newExpr, newExpr]

theorem newExpr_cons (c : UInt8) (s : List UInt8) (gone : Bool) (ign : List Bool) :
    newExpr (c :: s) (gone :: ign) = if gone then newExpr s ign else c :: newExpr s ign := by
  cases gone <;> rfl

theorem newExpr_replicate (s : List UInt8) :
    newExpr s (List.replicate s.length false) = s := by
  induction s with
  | nil => rfl
  | cons c s ih => rw [List.length_cons, List.replicate_succ, newExpr_cons, ih, if_neg (by decide)]

/-- Without the ignored characters the shortened expression is left. -/
theorem newExpr_marks (opL opR : Option Op) (e : Written) :
    newExpr e.text (marks opL opR e) = (shorten opL opR e).text := by
  induction e generalizing opL opR with
  | num ds => exact newExpr_replicate ds
  | paren e ih =>
    have hinner : newExpr (e.text ++ [41]) (marks none none e ++
        [redundant (shorten none none e).tops opL opR]) = (shorten none none e).text ++
          newExpr [41] [redundant (shorten none none e).tops opL opR] := by
      rw [newExpr_append (length_marks none none e).symm, ih]
    rw [text, marks, shorten]
    simp only [List.cons_append, newExpr_cons, hinner]
    cases redundant (shorten none none e).tops opL opR with
    | true => simp [newExpr]
    | false => simp [newExpr, text]
  | bin op l r ihl ihr =>
    rw [text, marks, shorten, newExpr_append (length_marks opL (some op) l).symm, newExpr_cons,
      if_neg (by decide), ihl, ihr, text_graft]

/-! ## What the test lets go -/

/-- Next to one of these operators a sum must keep its parentheses. -/
def Tight (opL opR : Option Op) : Prop := (∃ op ∈ opL, op ≠ .add) ∨ ∃ op ∈ opR, op.level = 1

/-- The first operator in the order of the `enum` is a sum when any is. -/
theorem first_seen {o : Op} (ho : seen o = true) (hlevel : o.level ≠ 1) :
    ∃ i, [Op.add, .sub, .mul, .div].find? seen = some i ∧ enumValue i ≤ enumValue .sub := by
  cases hadd : seen .add with
  | true => exact ⟨.add, by rw [List.find?_cons_of_pos hadd], by decide⟩
  | false =>
    have hsub : seen .sub = true := by
      cases o with
      | sub => exact ho
      | add =>
        rw [hadd] at ho
        cases ho
      | mul => exact absurd rfl hlevel
      | div => exact absurd rfl hlevel
    have hnot : ¬ seen .add = true := by simp [hadd]
    exact ⟨.sub, by rw [List.find?_cons_of_neg hnot, List.find?_cons_of_pos hsub], by decide⟩

theorem higherPrio_of_level {op i : Op} (hlevel : op.level = 1)
    (hle : enumValue i ≤ enumValue .sub) : higherPrio op i = true := by
  rw [higherPrio, Bool.and_eq_true, decide_eq_true_eq, decide_eq_true_eq]
  refine ⟨?_, hle⟩
  cases op with
  | add => cases hlevel
  | sub => cases hlevel
  | mul => decide
  | div => decide

theorem level_of_redundant (h : redundant seen opL opR = true) (htight : Tight opL opR) :
    ∀ o, seen o = true → o.level = 1 := by
  intro o ho
  by_contra hlevel
  obtain ⟨i, hi, hle⟩ := first_seen ho hlevel
  rw [redundant, hi] at h
  simp only [Bool.not_eq_true', Bool.or_eq_false_iff, Bool.and_eq_false_iff,
    decide_eq_false_iff_not] at h
  obtain ⟨⟨⟨hleft, hright⟩, hminus⟩, hdiv⟩ := h
  rcases htight with ⟨op, hop, hne⟩ | ⟨op, hop, hlevel⟩
  · rw [Option.mem_def] at hop
    rw [hop] at hleft hminus hdiv
    cases op with
    | add => exact hne rfl
    | sub => exact hminus.elim (fun h => h rfl) fun h => h hle
    | mul =>
      rw [Option.any_some, higherPrio_of_level rfl hle] at hleft
      cases hleft
    | div => exact hdiv rfl
  · rw [Option.mem_def] at hop
    rw [hop, Option.any_some, higherPrio_of_level hlevel hle] at hright
    cases hright

theorem none_of_redundant (h : redundant seen (some .div) opR = true) (o : Op) :
    seen o = false := by
  rw [redundant] at h
  split at h
  case h_1 hnone =>
    rw [List.find?_eq_none] at hnone
    have hnot := hnone o (by cases o <;> simp)
    simpa using hnot
  case h_2 => simp at h

/-! ## The shortened expression -/

/-- A term shows no sum where a sum would need parentheses. -/
theorem level_of_shorten (h : e.Fits numeral 1) (htight : Tight opL opR) :
    ∀ o, (shorten opL opR e).tops o = true → o.level = 1 := by
  induction e generalizing opL opR with
  | num ds =>
    intro o ho
    cases ho
  | paren e ih =>
    intro o ho
    rw [shorten] at ho
    split at ho
    case isTrue hgone => exact level_of_redundant hgone htight o ho
    case isFalse => cases ho
  | bin op l r ihl ihr =>
    have hlevel : op.level = 1 := Nat.le_antisymm (level_le_one op) h.1
    have hne : op ≠ .add := by
      rintro rfl
      cases hlevel
    rw [Fits, hlevel] at h
    intro o ho
    rw [shorten, tops_graft, tops, Function.update_apply] at ho
    by_cases heq : o = op
    · rw [heq, hlevel]
    · rw [if_neg heq, Bool.or_eq_true] at ho
      cases ho with
      | inl hleft => exact ihl h.2.1 (Or.inr ⟨op, rfl, hlevel⟩) o hleft
      | inr hright => exact ihr (h.2.2.mono (by decide)) (Or.inl ⟨op, rfl, hne⟩) o hright

/-- What is left is an expression again. -/
theorem shorten_fits (opL opR : Option Op) (h : e.Fits numeral level) :
    (shorten opL opR e).Fits numeral 0 := by
  induction e generalizing opL opR level with
  | num ds => exact h
  | paren e ih =>
    rw [shorten]
    split <;> exact ih none none h
  | bin op l r ihl ihr =>
    obtain ⟨_, hl, hr⟩ := h
    have hl' := ihl opL (some op) hl
    have hr' := ihr (some op) opR hr
    rw [shorten]
    by_cases hlevel : op.level = 1
    · have hne : op ≠ .add := by
        rintro rfl
        cases hlevel
      rw [hlevel] at hl hr
      have hl1 := hl'.term (level_of_shorten hl (Or.inr ⟨op, rfl, hlevel⟩))
      have hr1 := hr'.term (level_of_shorten (hr.mono (by decide)) (Or.inl ⟨op, rfl, hne⟩))
      rw [← hlevel] at hl1 hr1
      exact (graft_fits hl1 hr1).mono (Nat.zero_le _)
    · have hzero : op.level = 0 := by
        have hle := level_le_one op
        omega
      rw [← hzero] at hl' hr' ⊢
      exact graft_fits hl' hr'

/-- No pair of parentheses with a quotient in it goes where a `*` stands before it. -/
def KeepsQuotients : Option Op → Option Op → Written → Prop
  | _, _, .num _ => True
  | _, _, .paren e => KeepsQuotients none none e
  | opL, opR, .bin op l r =>
      KeepsQuotients opL (some op) l ∧ KeepsQuotients (some op) opR r ∧
        (op = .mul → (shorten (some op) opR r).tops .div = false)

instance decidableKeepsQuotients :
    ∀ opL opR e, Decidable (KeepsQuotients opL opR e)
  | _, _, .num _ => isTrue trivial
  | _, _, .paren e => decidableKeepsQuotients none none e
  | opL, opR, .bin op l r =>
      haveI := decidableKeepsQuotients opL (some op) l
      haveI := decidableKeepsQuotients (some op) opR r
      inferInstanceAs (Decidable (_ ∧ _ ∧ _))

/-- What is left then has the same value. -/
theorem exactValue_shorten (h : e.Fits numeral level) (hkeeps : KeepsQuotients opL opR e) :
    (shorten opL opR e).exactValue = e.exactValue := by
  induction e generalizing opL opR level with
  | num ds => rfl
  | paren e ih =>
    rw [shorten]
    split
    · exact ih h hkeeps
    · exact ih h hkeeps
  | bin op l r ihl ihr =>
    obtain ⟨_, hl, hr⟩ := h
    obtain ⟨hkl, hkr, hquotient⟩ := hkeeps
    have hr' := shorten_fits (some op) opR hr
    have hgraft : (graft op (shorten opL (some op) l) (shorten (some op) opR r)).exactValue =
        (Written.bin op (shorten opL (some op) l) (shorten (some op) opR r)).exactValue := by
      cases op with
      | add => exact exactValue_graft_add hr'
      | sub =>
        have hterm := hr'.term (level_of_shorten hr (Or.inl ⟨.sub, rfl, by decide⟩))
        rw [graft_of_fits hterm]
      | mul =>
        have hterm := hr'.term (level_of_shorten (hr.mono (by decide))
          (Or.inl ⟨.mul, rfl, by decide⟩))
        exact exactValue_graft_mul hterm (hquotient rfl)
      | div =>
        have hfactor : (shorten (some .div) opR r).Fits numeral 2 := by
          apply hr'.factor
          intro o
          cases r with
          | num ds => rfl
          | paren e =>
            rw [shorten]
            split
            case isTrue hgone => exact none_of_redundant hgone o
            case isFalse => rfl
          | bin op' a b => cases op' <;> exact absurd hr.1 (by decide)
        rw [graft_of_fits hfactor]
    rw [shorten, hgraft, exactValue_bin, exactValue_bin, ihl hl hkl, ihr hr hkr]

end InterviewQuestions.RedundantParens

/-! The string that the evaluator returns is the shortened expression, which has the same value
unless a quotient loses its parentheses after a `*`. -/
namespace InterviewQuestions.RedundantParens

open Library Arithmetic Written Descent

variable {s : List UInt8} {start : ℕ} {opL opR : Option Op} {e : Written} {level : ℕ} {v : ℤ}

/-! ## The parser -/

def literal (digits : List UInt8) : Marking OpsList := fun ign =>
  (intLiteral digits).map fun v => (⟨noneSeen, v⟩, ign)

theorem bind_apply {α β : Type} (x : Marking α) (f : α → Marking β) (ign : List Bool) :
    (x >>= f) ign = (x ign).bind fun p => f p.1 p.2 := rfl

theorem marker_reads : Reads marker IsSigned literal where
  head := evaluator_reads.head
  number ds rest hds hrest := by
    have hread := evaluator_reads.number ds rest hds hrest
    change readInt (ds ++ rest) = _ at hread
    funext ign
    rw [bind_apply]
    simp only [marker, literal, hread]
    cases intLiteral ds <;> rfl

/-- The operators around an expression, as `redundant_parens` reads them. -/
structure Between (s : List UInt8) (start : ℕ) (e : Written) (opL opR : Option Op) : Prop where
  left : (if 0 < start then charToOp (char s (start - 1)) else none) = opL
  right : charToOp (char s (start + e.text.length)) = opR

@[simp] theorem charToOp_char (op : Op) : charToOp op.char = some op := by
  cases op <;> rfl

theorem Between.paren (h : Stands s start (.paren e)) : Between s (start + 1) e none none := by
  obtain ⟨_, hopen, hclose⟩ := h.paren
  constructor
  · rw [if_pos (Nat.succ_pos start), Nat.add_sub_cancel, hopen]
    rfl
  · rw [hclose]
    rfl

theorem Between.bin {op : Op} {l r : Written} (h : Stands s start (.bin op l r))
    (hb : Between s start (.bin op l r) opL opR) :
    Between s start l opL (some op) ∧
      Between s (start + l.text.length + 1) r (some op) opR := by
  obtain ⟨_, hop, _⟩ := h.bin
  have hlength := length_bin op l r
  have hend : start + l.text.length + 1 + r.text.length =
      start + (Written.bin op l r).text.length := by omega
  refine ⟨⟨hb.left, by rw [hop, charToOp_char]⟩, ⟨?_, by rw [hend]; exact hb.right⟩⟩
  rw [if_pos (Nat.succ_pos _), Nat.add_sub_cancel, hop, charToOp_char]

/-- The two parentheses are marked. -/
theorem set_marks {front ign back : List Bool} {n : ℕ} (hfront : front.length = start)
    (hign : ign.length = n) :
    ((((front ++ [false]) ++ (ign ++ false :: back)).set start true).set (start + 1 + n) true) =
      front ++ (true :: ign ++ [true] ++ back) := by
  subst hfront hign
  have hopen : ((front ++ [false]) ++ (ign ++ false :: back)).set front.length true =
      (front ++ true :: ign) ++ false :: back := by
    rw [List.append_assoc, List.set_append_right _ _ (Nat.le_refl _), Nat.sub_self]
    simp
  have hplace : front.length + 1 + ign.length = (front ++ true :: ign).length := by
    simp
    omega
  rw [hopen, hplace, List.set_append_right _ _ (Nat.le_refl _), Nat.sub_self]
  simp

theorem unmarked_paren (e : Written) (front back : List Bool) :
    front ++ (List.replicate (Written.paren e).text.length false ++ back) =
      (front ++ [false]) ++ (List.replicate e.text.length false ++ (false :: back)) := by
  have hlength : (Written.paren e).text.length = e.text.length + 2 := by simp [text]
  rw [hlength, List.replicate_succ, List.replicate_succ']
  simp

theorem unmarked_bin (op : Op) (l r : Written) (front back : List Bool) :
    front ++ (List.replicate (Written.bin op l r).text.length false ++ back) =
      front ++ (List.replicate l.text.length false ++
        (false :: (List.replicate r.text.length false ++ back))) := by
  have hlength : (Written.bin op l r).text.length = l.text.length + (r.text.length + 1) := by
    rw [length_bin]
    omega
  rw [hlength, List.replicate_add, List.replicate_succ, List.append_assoc, List.cons_append]

/-- The test looks at the operators around the parentheses. -/
theorem Between.redundantParens (hb : Between s start (.paren e) opL opR) (ops : OpsList) :
    redundantParens s start (start + 1 + e.text.length) ops = redundant ops.seen opL opR := by
  have hlength : (Written.paren e).text.length = e.text.length + 2 := by simp [text]
  have hclose : start + 1 + e.text.length + 1 = start + (Written.paren e).text.length := by omega
  rw [RedundantParens.redundantParens, hb.left, hclose, hb.right]

/-- What the parser returns for an expression, and what it writes to `ign`. -/
theorem actions_marker (h : Stands s start e) (hb : Between s start e opL opR)
    (front back : List Bool) (hfront : front.length = start) :
    actions marker literal s start e (front ++ (List.replicate e.text.length false ++ back)) =
      e.intValue.map fun v =>
        (⟨(shorten opL opR e).tops, v⟩, front ++ (marks opL opR e ++ back)) := by
  induction e generalizing start opL opR front back with
  | num ds => rfl
  | paren e ih =>
    obtain ⟨hinner, _, _⟩ := h.paren
    have hstart : (front ++ [false]).length = start + 1 := by simp [hfront]
    rw [actions, bind_apply, unmarked_paren, ih hinner (.paren h) _ _ hstart, intValue_paren]
    cases e.intValue with
    | none => rfl
    | some v =>
      simp only [Option.map_some, Option.bind_some, marker, hb.redundantParens]
      cases hgone : redundant (shorten none none e).tops opL opR with
      | true =>
        rw [if_pos rfl, shorten, marks, hgone, if_pos rfl,
          set_marks hfront (length_marks none none e)]
      | false =>
        rw [if_neg (by decide), shorten, marks, hgone, if_neg (by decide)]
        simp [tops]
        rfl
  | bin op l r ihl ihr =>
    obtain ⟨hleft, _, hright⟩ := h.bin
    obtain ⟨hbl, hbr⟩ := Between.bin h hb
    have hmiddle : front ++ (marks opL (some op) l ++
          (false :: (List.replicate r.text.length false ++ back))) =
        (front ++ marks opL (some op) l ++ [false]) ++
          (List.replicate r.text.length false ++ back) := by simp
    have hstart : (front ++ marks opL (some op) l ++ [false]).length =
        start + l.text.length + 1 := by
      simp [hfront]
      omega
    rw [actions, bind_apply, unmarked_bin, ihl hleft hbl _ _ hfront, intValue_bin]
    cases l.intValue with
    | none => rfl
    | some x =>
      simp only [Option.map_some, Option.bind_some]
      rw [bind_apply, hmiddle, ihr hright hbr _ _ hstart]
      cases r.intValue with
      | none => rfl
      | some y =>
        simp only [Option.map_some, Option.bind_some, marker]
        rw [shorten, tops_graft, marks]
        simp [tops]
        rfl

/-- The shortened expression is returned, with the value of the whole one. -/
theorem evalExpr_text (hfits : e.Fits IsUnsigned level) : evalExpr e.text =
    e.intValue.map fun v => ((shorten none none e).text, v) := by
  have hfits' := (hfits.mono (Nat.zero_le level)).numerals fun _ => IsUnsigned.isSigned
  have hend : char e.text (0 + e.text.length) = 0 := by
    simp [char, List.getD_eq_getElem?_getD]
  have hstands : Stands e.text 0 e := ⟨⟨[], by simp⟩, by rw [hend]; rfl⟩
  have hbetween : Between e.text 0 e none none := ⟨if_neg (Nat.lt_irrefl 0), by rw [hend]; rfl⟩
  have hmarks := actions_marker hstands hbetween [] [] rfl
  rw [List.nil_append, List.append_nil, List.nil_append, List.append_nil] at hmarks
  rw [evalExpr, expr, expr_text marker_reads hfits' (Nat.le_refl _), bind_apply, hmarks]
  cases e.intValue with
  | none => rfl
  | some v =>
    rw [← newExpr_marks]
    rfl

/-! ## Soundness -/

/-- The string that is returned is an expression again, and has the value that is returned. -/
def KeepsValue (s : List UInt8) : Prop :=
  ∃ s' v, evalExpr s = some (s', v) ∧
    ∃ e' : Written, e'.Fits IsUnsigned 0 ∧ e'.text = s' ∧ e'.intValue = some v

/-- The string is an expression, so that its value is the one of the shortened expression. -/
theorem keepsValue_iff (hfits : e.Fits IsUnsigned 0) (hv : e.intValue = some v) :
    KeepsValue e.text ↔ (shorten none none e).intValue = some v := by
  have heval := evalExpr_text hfits
  have hshort := shorten_fits none none hfits
  rw [hv, Option.map_some] at heval
  constructor
  · rintro ⟨s', v', heval', e', hfits', htext, hvalue⟩
    rw [heval] at heval'
    cases heval'
    have hsame := text_injective (hfits'.numerals fun _ => IsUnsigned.isSigned)
      (hshort.numerals fun _ => IsUnsigned.isSigned) htext
    rw [← hsame, hvalue]
  · intro hvalue
    exact ⟨_, v, heval, _, hshort, rfl, hvalue⟩

end InterviewQuestions.RedundantParens

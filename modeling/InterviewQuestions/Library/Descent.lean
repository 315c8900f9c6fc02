import InterviewQuestions.Library.Arithmetic
import Mathlib.Tactic.Common

/-! A recursive descent parser for arithmetic expressions, whose right recursive rules carry
the value so far. What is done with numbers, operators and parentheses is a parameter.
Recursion has fuel; a cursor beyond the end of the string reads `NUL`. -/
namespace InterviewQuestions.Library.Descent

open Arithmetic

/-- `number` is given the rest of the string and says how much of it the number is; `paren`
is given the string and the places of the two parentheses. -/
structure Actions (m : Type → Type) (α : Type) where
  number : List UInt8 → m (α × ℕ)
  apply : Op → α → α → m α
  paren : List UInt8 → ℕ → ℕ → α → m α
  fail : m (α × ℕ)

def char (s : List UInt8) (i : ℕ) : UInt8 := s.getD i 0

def addOp (c : UInt8) : Option Op :=
  if c = 43 then some .add else if c = 45 then some .sub else none

def mulOp (c : UInt8) : Option Op :=
  if c = 42 then some .mul else if c = 47 then some .div else none

section Parser

variable {m : Type → Type} [Monad m] {α : Type} (A : Actions m α) (s : List UInt8)

mutual

def expr : ℕ → ℕ → m (α × ℕ)
  | 0, _ => A.fail
  | fuel + 1, cursor => do
      let first ← term fuel cursor
      exprR fuel first.2 first.1

def exprR : ℕ → ℕ → α → m (α × ℕ)
  | 0, _, _ => A.fail
  | fuel + 1, cursor, res =>
      match addOp (char s cursor) with
      | none => pure (res, cursor)
      | some op => do
          let second ← term fuel (cursor + 1)
          let res ← A.apply op res second.1
          exprR fuel second.2 res

def term : ℕ → ℕ → m (α × ℕ)
  | 0, _ => A.fail
  | fuel + 1, cursor => do
      let first ← factor fuel cursor
      termR fuel first.2 first.1

def termR : ℕ → ℕ → α → m (α × ℕ)
  | 0, _, _ => A.fail
  | fuel + 1, cursor, res =>
      match mulOp (char s cursor) with
      | none => pure (res, cursor)
      | some op => do
          let second ← factor fuel (cursor + 1)
          let res ← A.apply op res second.1
          termR fuel second.2 res

def factor : ℕ → ℕ → m (α × ℕ)
  | 0, _ => A.fail
  | fuel + 1, cursor =>
      if char s cursor = 40 then do
        let inner ← expr fuel (cursor + 1)
        if char s inner.2 = 41 then do
          let res ← A.paren s cursor inner.2 inner.1
          pure (res, inner.2 + 1)
        else A.fail
      else do
        let read ← A.number (s.drop cursor)
        pure (read.1, cursor + read.2)

end

end Parser

/-! ## What is parsed -/

/-- The actions for a written expression that stands at a place of the string. -/
def actions {m : Type → Type} [Monad m] {α : Type} (A : Actions m α)
    (literal : List UInt8 → m α) (s : List UInt8) : ℕ → Written → m α
  | _, .num digits => literal digits
  | start, .paren e => do
      let res ← actions A literal s (start + 1) e
      A.paren s start (start + 1 + e.text.length) res
  | start, .bin op l r => do
      let x ← actions A literal s start l
      let y ← actions A literal s (start + l.text.length + 1) r
      A.apply op x y

/-- The numerals that `number` reads, with what it makes of them. -/
structure Reads {m : Type → Type} [Monad m] {α : Type} (A : Actions m α)
    (numeral : List UInt8 → Prop) (literal : List UInt8 → m α) : Prop where
  head : ∀ ds, numeral ds → ∃ d rest, ds = d :: rest ∧ d ≠ 40
  number : ∀ ds rest, numeral ds → (∀ b ∈ rest.head?, Scanf.isdigit b = false) →
    A.number (ds ++ rest) = literal ds >>= fun v => pure (v, ds.length)

/-- The expression stands in the string, and no digit follows it. -/
structure Stands (s : List UInt8) (start : ℕ) (e : Written) : Prop where
  text : ∃ rest, s.drop start = e.text ++ rest
  stop : Scanf.isdigit (char s (start + e.text.length)) = false

section Stands

variable {s : List UInt8} {start : ℕ} {e l r : Written} {op : Op} {rest : List UInt8}

theorem char_append {t : List UInt8} {c : UInt8} (h : s.drop start = t ++ c :: rest) :
    char s (start + t.length) = c := by
  have hget : s[start + t.length]? = (s.drop start)[t.length]? := List.getElem?_drop.symm
  rw [char, List.getD_eq_getElem?_getD, hget, h]
  simp

theorem drop_append {t back : List UInt8} (h : s.drop start = t ++ back) :
    s.drop (start + t.length) = back := by
  rw [← List.drop_drop, h, List.drop_left]

theorem isdigit_char (op : Op) : Scanf.isdigit op.char = false := by
  cases op <;> decide

theorem Stands.next (h : Stands s start e) :
    ∃ rest, s.drop start = e.text ++ rest ∧ ∀ b ∈ rest.head?, Scanf.isdigit b = false := by
  obtain ⟨rest, hrest⟩ := h.text
  exists rest
  constructor
  · exact hrest
  · intro b hb
    cases rest with
    | nil => cases hb
    | cons c rest =>
      have hstop := h.stop
      rw [char_append hrest] at hstop
      cases hb
      exact hstop

theorem Stands.paren (h : Stands s start (.paren e)) :
    Stands s (start + 1) e ∧ char s start = 40 ∧ char s (start + 1 + e.text.length) = 41 := by
  obtain ⟨rest, hrest⟩ := h.text
  have hopen : s.drop start = [] ++ 40 :: (e.text ++ 41 :: rest) := by
    rw [hrest, Written.text]
    simp
  have hinner : s.drop (start + 1) = e.text ++ 41 :: rest :=
    drop_append (t := [40]) hopen
  have hclose : char s (start + 1 + e.text.length) = 41 := char_append hinner
  exact ⟨⟨⟨41 :: rest, hinner⟩, by rw [hclose]; decide⟩, char_append hopen, hclose⟩

theorem Stands.bin (h : Stands s start (.bin op l r)) :
    Stands s start l ∧ char s (start + l.text.length) = op.char ∧
      Stands s (start + l.text.length + 1) r := by
  obtain ⟨rest, hrest⟩ := h.text
  have hleft : s.drop start = l.text ++ op.char :: (r.text ++ rest) := by
    rw [hrest, Written.text]
    simp
  have hop : char s (start + l.text.length) = op.char := char_append hleft
  have hright : s.drop (start + l.text.length + 1) = r.text ++ rest :=
    drop_append (t := [op.char]) (drop_append hleft)
  have hlength : start + (Written.bin op l r).text.length =
      start + l.text.length + 1 + r.text.length := by
    simp [Written.text]
    omega
  have hstop := h.stop
  rw [hlength] at hstop
  exact ⟨⟨⟨_, hleft⟩, by rw [hop]; exact isdigit_char op⟩, hop, ⟨_, hright⟩, hstop⟩

end Stands

/-! ## The parser -/

section Spec

variable {m : Type → Type} [Monad m] [LawfulMonad m] {α : Type} {A : Actions m α}
  {literal : List UInt8 → m α} {numeral : List UInt8 → Prop} {s : List UInt8} {start : ℕ}
  {e : Written}

/-- `factor` reads the whole expression. -/
def FactorSpec (A : Actions m α) (literal : List UInt8 → m α) (s : List UInt8) (start : ℕ)
    (e : Written) : Prop :=
  ∀ fuel, 4 * e.text.length ≤ fuel → factor A s fuel start =
    actions A literal s start e >>= fun v => pure (v, start + e.text.length)

/-- `term` reads the whole expression and is left with `term_r`. -/
def TermSpec (A : Actions m α) (literal : List UInt8 → m α) (s : List UInt8) (start : ℕ)
    (e : Written) : Prop :=
  ∀ fuel, 4 * e.text.length + 1 ≤ fuel → ∃ left, fuel ≤ left + 4 * e.text.length + 1 ∧
    term A s fuel start =
      actions A literal s start e >>= fun v => termR A s left (start + e.text.length) v

/-- `expr` reads the whole expression and is left with `expr_r`. -/
def ExprSpec (A : Actions m α) (literal : List UInt8 → m α) (s : List UInt8) (start : ℕ)
    (e : Written) : Prop :=
  ∀ fuel, 4 * e.text.length + 3 ≤ fuel → ∃ left, fuel ≤ left + 4 * e.text.length + 3 ∧
    expr A s fuel start =
      actions A literal s start e >>= fun v => exprR A s left (start + e.text.length) v

theorem addOp_char {op : Op} (h : op.level = 0) : addOp op.char = some op := by
  cases op <;> first | rfl | cases h

theorem mulOp_char_of_add {op : Op} (h : op.level = 0) : mulOp op.char = none := by
  cases op <;> first | rfl | cases h

theorem mulOp_char {op : Op} (h : op.level = 1) : mulOp op.char = some op := by
  cases op <;> first | rfl | cases h

theorem FactorSpec.term (h : FactorSpec A literal s start e) (hpos : 0 < e.text.length) :
    TermSpec A literal s start e := by
  intro fuel hfuel
  obtain ⟨fuel, rfl⟩ : ∃ f, fuel = f + 1 := ⟨fuel - 1, by omega⟩
  refine ⟨fuel, by omega, ?_⟩
  rw [Descent.term, h fuel (by omega), bind_assoc]
  simp only [pure_bind]

theorem TermSpec.expr (h : TermSpec A literal s start e)
    (hstop : mulOp (char s (start + e.text.length)) = none) : ExprSpec A literal s start e := by
  intro fuel hfuel
  obtain ⟨fuel, rfl⟩ : ∃ f, fuel = f + 1 := ⟨fuel - 1, by omega⟩
  obtain ⟨left, hleft, hterm⟩ := h fuel (by omega)
  obtain ⟨left, rfl⟩ : ∃ f, left = f + 1 := ⟨left - 1, by omega⟩
  refine ⟨fuel, by omega, ?_⟩
  rw [Descent.expr, hterm, bind_assoc]
  simp only [termR, hstop, pure_bind]

theorem length_bin (op : Op) (l r : Written) :
    (Written.bin op l r).text.length = l.text.length + 1 + r.text.length := by
  simp [Written.text]
  omega

/-- A chain of factors, up to one more of them. -/
theorem TermSpec.bin {op : Op} {l r : Written} (hl : TermSpec A literal s start l)
    (hr : FactorSpec A literal s (start + l.text.length + 1) r)
    (hop : mulOp (char s (start + l.text.length)) = some op) :
    TermSpec A literal s start (.bin op l r) := by
  intro fuel hfuel
  have hlength := length_bin op l r
  obtain ⟨left, hleft, hterm⟩ := hl fuel (by omega)
  obtain ⟨left, rfl⟩ : ∃ f, left = f + 1 := ⟨left - 1, by omega⟩
  refine ⟨left, by omega, ?_⟩
  have hend : start + l.text.length + 1 + r.text.length =
      start + (Written.bin op l r).text.length := by omega
  rw [hterm]
  simp only [actions, bind_assoc, termR, hop, hr left (by omega), pure_bind, hend]

/-- A chain of terms, up to one more of them. -/
theorem ExprSpec.bin {op : Op} {l r : Written} (hl : ExprSpec A literal s start l)
    (hr : TermSpec A literal s (start + l.text.length + 1) r)
    (hop : addOp (char s (start + l.text.length)) = some op)
    (hstop : mulOp (char s (start + (Written.bin op l r).text.length)) = none) :
    ExprSpec A literal s start (.bin op l r) := by
  intro fuel hfuel
  have hlength := length_bin op l r
  have hend : start + l.text.length + 1 + r.text.length =
      start + (Written.bin op l r).text.length := by omega
  obtain ⟨left, hleft, hexpr⟩ := hl fuel (by omega)
  obtain ⟨left, rfl⟩ : ∃ f, left = f + 1 := ⟨left - 1, by omega⟩
  obtain ⟨right, hright, hterm⟩ := hr left (by omega)
  obtain ⟨right, rfl⟩ : ∃ f, right = f + 1 := ⟨right - 1, by omega⟩
  refine ⟨left, by omega, ?_⟩
  rw [hexpr]
  simp only [actions, bind_assoc, exprR, hop, hterm, termR, hend, hstop, pure_bind]

theorem FactorSpec.num {ds : List UInt8} (hreads : Reads A numeral literal) (hds : numeral ds)
    (h : Stands s start (.num ds)) : FactorSpec A literal s start (.num ds) := by
  intro fuel hfuel
  obtain ⟨d, tail, hcons, hopen⟩ := hreads.head ds hds
  obtain ⟨rest, hrest, hstop⟩ := h.next
  rw [Written.text] at hrest hfuel
  have hchar : char s start ≠ 40 := by
    rw [hcons] at hrest
    have hfirst : char s start = d := char_append (t := []) hrest
    rwa [hfirst]
  obtain ⟨fuel, rfl⟩ : ∃ f, fuel = f + 1 := by
    rw [hcons, List.length_cons] at hfuel
    exact ⟨fuel - 1, by omega⟩
  rw [factor, if_neg hchar, hrest, hreads.number ds rest hds hstop, bind_assoc]
  simp only [pure_bind, actions, Written.text]

theorem FactorSpec.paren (he : ExprSpec A literal s (start + 1) e)
    (h : Stands s start (.paren e)) : FactorSpec A literal s start (.paren e) := by
  intro fuel hfuel
  obtain ⟨_, hopen, hclose⟩ := h.paren
  have hlength : (Written.paren e).text.length = e.text.length + 2 := by simp [Written.text]
  obtain ⟨fuel, rfl⟩ : ∃ f, fuel = f + 1 := ⟨fuel - 1, by omega⟩
  obtain ⟨left, hleft, hexpr⟩ := he fuel (by omega)
  obtain ⟨left, rfl⟩ : ∃ f, left = f + 1 := ⟨left - 1, by omega⟩
  have hstop : addOp 41 = none := rfl
  have hend : start + 1 + e.text.length + 1 = start + (Written.paren e).text.length := by omega
  rw [factor, if_pos hopen, hexpr]
  simp only [bind_assoc, exprR, hstop, pure_bind, hclose, if_true, actions, hend]

/-- The expression is read by every rule of its level. -/
structure Parsed (A : Actions m α) (numeral : List UInt8 → Prop) (literal : List UInt8 → m α)
    (s : List UInt8) (start : ℕ) (e : Written) : Prop where
  factor : e.Fits numeral 2 → FactorSpec A literal s start e
  term : e.Fits numeral 1 → TermSpec A literal s start e
  expr : e.Fits numeral 0 → mulOp (char s (start + e.text.length)) = none →
    ExprSpec A literal s start e

theorem Parsed.of_factor (hpos : e.Fits numeral 0 → 0 < e.text.length)
    (h : e.Fits numeral 0 → FactorSpec A literal s start e) :
    Parsed A numeral literal s start e where
  factor hfits := h (hfits.mono (Nat.zero_le 2))
  term hfits :=
    have hfits := hfits.mono (Nat.zero_le 1)
    (h hfits).term (hpos hfits)
  expr hfits hstop := ((h hfits).term (hpos hfits)).expr hstop

theorem parsed (hreads : Reads A numeral literal) (h : Stands s start e) :
    Parsed A numeral literal s start e := by
  induction e generalizing start with
  | num ds =>
    apply Parsed.of_factor
    · intro hds
      obtain ⟨d, tail, hcons, _⟩ := hreads.head ds hds
      rw [Written.text, hcons]
      exact Nat.succ_pos _
    · exact fun hds => .num hreads hds h
  | paren e ih =>
    obtain ⟨hinner, _, hclose⟩ := h.paren
    apply Parsed.of_factor
    · exact fun _ => by simp [Written.text]
    · exact fun hfits => .paren ((ih hinner).expr hfits (by rw [hclose]; rfl)) h
  | bin op l r ihl ihr =>
    obtain ⟨hleft, hop, hright⟩ := h.bin
    have hterm : (Written.bin op l r).Fits numeral 1 →
        TermSpec A literal s start (.bin op l r) := by
      intro hfits
      have hlevel : op.level = 1 := by
        have hle := hfits.1
        cases op <;> first | rfl | cases hle
      rw [Written.Fits, hlevel] at hfits
      exact .bin ((ihl hleft).term hfits.2.1) ((ihr hright).factor hfits.2.2)
        (by rw [hop, mulOp_char hlevel])
    constructor
    · intro hfits
      have hle := hfits.1
      cases op <;> exact absurd hle (by decide)
    · exact hterm
    · intro hfits hstop
      by_cases hlevel : op.level = 0
      · rw [Written.Fits, hlevel] at hfits
        have hexpr := (ihl hleft).expr hfits.2.1 (by rw [hop, mulOp_char_of_add hlevel])
        exact hexpr.bin ((ihr hright).term hfits.2.2) (by rw [hop, addOp_char hlevel]) hstop
      · exact (hterm ⟨Nat.one_le_iff_ne_zero.mpr hlevel, hfits.2⟩).expr hstop

/-- A string that is an expression is read to its end. -/
theorem expr_text (hreads : Reads A numeral literal) (hfits : e.Fits numeral 0) {fuel : ℕ}
    (hfuel : 4 * e.text.length + 4 ≤ fuel) : expr A e.text fuel 0 =
      actions A literal e.text 0 e >>= fun v => pure (v, e.text.length) := by
  have hend : char e.text e.text.length = 0 := by
    simp [char, List.getD_eq_getElem?_getD]
  rw [← Nat.zero_add e.text.length] at hend
  have hstands : Stands e.text 0 e := ⟨⟨[], by simp⟩, by rw [hend]; rfl⟩
  obtain ⟨left, hleft, hexpr⟩ :=
    (parsed hreads hstands).expr hfits (by rw [hend]; rfl) fuel (by omega)
  obtain ⟨left, rfl⟩ : ∃ f, left = f + 1 := ⟨left - 1, by omega⟩
  have hstop : addOp 0 = none := rfl
  rw [hexpr]
  simp only [exprR, hend, hstop]
  rw [Nat.zero_add]

end Spec

/-! ## Evaluation -/

open Scanf

/-- `sscanf(input, "%d%n", ..)`: the number and how many characters it takes. -/
def readInt (input : List UInt8) : Option (ℤ × ℕ) :=
  (scanInt (skipSpace input)).bind fun found =>
    (int found.1).map fun z => (z, input.length - found.2.length)

/-- Evaluation with `int`s. -/
def evaluator : Actions Option ℤ where
  number := readInt
  apply := Op.apply
  paren _ _ _ v := some v
  fail := none

/-- A numeral is read whole. -/
theorem scanInt_of_isSigned {ds rest : List UInt8} (hds : IsSigned ds)
    (hrest : ∀ b ∈ rest.head?, isdigit b = false) :
    ∃ z, scanInt ds = some (z, []) ∧ scanInt (ds ++ rest) = some (z, rest) := by
  rcases hds with hds | ⟨sign, digits, hsign, rfl, hds⟩
  · have hwhole := scanInt_append hds.1 hds.2 isdigit_head_nil
    rw [List.append_nil] at hwhole
    exact ⟨_, hwhole, scanInt_append hds.1 hds.2 hrest⟩
  · have hwhole := scanNat_append hds.1 hds.2 isdigit_head_nil
    rw [List.append_nil] at hwhole
    have hscan := scanNat_append hds.1 hds.2 hrest
    rw [List.cons_append]
    rcases hsign with rfl | rfl
    · rw [scanInt_plus, scanInt_plus, hwhole, hscan]
      exact ⟨_, rfl, rfl⟩
    · rw [scanInt_minus, scanInt_minus, hwhole, hscan]
      exact ⟨_, rfl, rfl⟩

theorem isspace_head_of_isSigned {ds : List UInt8} (hds : IsSigned ds) :
    ∃ d rest, ds = d :: rest ∧ d ≠ 40 ∧ isspace d = false := by
  rcases hds with hds | ⟨sign, digits, hsign, rfl, hds⟩
  · obtain ⟨hne, hdigits⟩ := hds
    cases ds with
    | nil => exact absurd rfl hne
    | cons d rest =>
      have hdigit := hdigits d List.mem_cons_self
      refine ⟨d, rest, rfl, ?_, isspace_of_isdigit hdigit⟩
      rintro rfl
      cases hdigit
  · refine ⟨sign, digits, rfl, ?_⟩
    rcases hsign with rfl | rfl <;> decide

theorem evaluator_reads : Reads evaluator IsSigned Written.intLiteral where
  head ds hds := by
    obtain ⟨d, rest, hcons, hopen, _⟩ := isspace_head_of_isSigned hds
    exact ⟨d, rest, hcons, hopen⟩
  number ds rest hds hrest := by
    obtain ⟨d, tail, hcons, _, hspace⟩ := isspace_head_of_isSigned hds
    obtain ⟨z, hwhole, hscan⟩ := scanInt_of_isSigned hds hrest
    have hskip : skipSpace (ds ++ rest) = ds ++ rest := by
      apply skipSpace_of_head
      intro b hb
      rw [hcons] at hb
      cases hb
      exact hspace
    have hlength : (ds ++ rest).length - rest.length = ds.length := by simp
    simp only [evaluator, readInt, hskip, hscan, Option.bind_some, Written.intLiteral, hwhole,
      hlength]
    cases int z <;> rfl

theorem actions_evaluator (s : List UInt8) (start : ℕ) (e : Written) :
    actions evaluator Written.intLiteral s start e = e.intValue := by
  induction e generalizing start with
  | num ds => rfl
  | paren e ih =>
    rw [actions, ih]
    change e.intValue.bind some = e.intValue
    cases e.intValue <;> rfl
  | bin op l r ihl ihr =>
    rw [actions, ihl, ihr]
    rfl

/-- An expression is evaluated as it is written. -/
theorem expr_evaluator {e : Written} (hfits : e.Fits IsSigned 0) {fuel : ℕ}
    (hfuel : 4 * e.text.length + 4 ≤ fuel) : expr evaluator e.text fuel 0 =
      e.intValue.map fun v => (v, e.text.length) := by
  rw [expr_text evaluator_reads hfits hfuel, actions_evaluator]
  cases e.intValue <;> rfl

/-! ## Unambiguity -/

/-- The parser that builds what it reads. -/
def builder : Actions Option Written where
  number input := (scanInt input).map fun found =>
    (.num (input.take (input.length - found.2.length)), input.length - found.2.length)
  apply op l r := some (.bin op l r)
  paren _ _ _ e := some (.paren e)
  fail := none

theorem builder_reads : Reads builder IsSigned fun ds => some (.num ds) where
  head := evaluator_reads.head
  number ds rest hds hrest := by
    obtain ⟨z, _, hscan⟩ := scanInt_of_isSigned hds hrest
    have hlength : (ds ++ rest).length - rest.length = ds.length := by simp
    simp only [builder, hscan, Option.map_some, hlength, List.take_left]
    rfl

theorem actions_builder (s : List UInt8) (start : ℕ) (e : Written) :
    actions builder (fun ds => some (.num ds)) s start e = some e := by
  induction e generalizing start with
  | num ds => rfl
  | paren e ih =>
    rw [actions, ih]
    rfl
  | bin op l r ihl ihr =>
    rw [actions, ihl, ihr]
    rfl

/-- A string is one expression at most. -/
theorem text_injective {e e' : Written} (he : e.Fits IsSigned 0) (he' : e'.Fits IsSigned 0)
    (htext : e.text = e'.text) : e = e' := by
  have hparse := expr_text builder_reads he (Nat.le_refl _)
  have hparse' := expr_text builder_reads he' (Nat.le_refl _)
  rw [actions_builder] at hparse hparse'
  rw [htext, hparse'] at hparse
  cases hparse
  rfl

end InterviewQuestions.Library.Descent
